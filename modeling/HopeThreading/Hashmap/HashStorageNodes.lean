import HopeThreading.Hashmap.HashStorageSequential
import HopeThreading.Transition.Sequence

namespace HopeThreading.HashStorage

open Transition Hashing

/-!
# `hash_storage` — the nodes of its lists

`find` returns a pointer into a list node.  Here each node has an identity, a number that
`emplace_front` and `push_front` take from a counter, and the calls of `HashStorageSequential`
are made on lists of such nodes (`Nodes.call`); without the identities they are those calls
(`elements_call`).

A node stays where it is until its key is removed or its bucket grows: `resize` puts a new node
for each element in the new table and drops the old ones (`find_stays_iff`).
-/

variable {K V E A : Type*}

/-- A list node. -/
structure Node (E : Type*) where
  id : Nat
  element : E
  deriving DecidableEq

/-- The traits of elements in nodes; an argument comes with the identity of a node that is
    created from it. -/
def nodeTraits (T : Traits K V E A) : Traits K V (Node E) (Nat × A) where
  extractKey n := T.extractKey n.element
  argKey a := T.argKey a.2
  construct a := { id := a.1, element := T.construct a.2 }
  assign n a := { n with element := T.assign n.element a.2 }
  renew v n := { v with element := T.renew v.element n.element }
  value n := T.value n.element
  argValue a := T.argValue a.2
  key_construct a := T.key_construct a.2
  key_assign n a := T.key_assign n.element a.2
  value_construct a := T.value_construct a.2
  value_assign n a := T.value_assign n.element a.2
  value_renew v n := T.value_renew v.element n.element

/-- A storage with its nodes, and the number of nodes created so far. -/
structure Nodes (E : Type*) where
  storage : Shared (Node E)
  created : Nat

/-- The storage before the first call: no node was created. -/
def Nodes.init : Nodes E where
  storage := Shared.init
  created := 0

/-- The nodes that `push_front(value)` creates for the elements of some nodes. -/
def copies (created : Nat) (l : List (Node E)) : List (Node E) :=
  l.mapIdx fun i n => { n with id := created + i }

section

variable (p : Params) (h : Hashing K) (T : Traits K V E A)

/-- `resize(bucket)`; the copies are created list by list. -/
def resizeNodes (created : Nat) (b : Bucket (Node E)) : Bucket (Node E) :=
  let bucketCapacity := b.capacity * p.resizeFactor
  { bucket := rehash h (nodeTraits T).extractKey bucketCapacity [copies created b.bucket.flatten],
    size := b.size, capacity := bucketCapacity, resizing := false, changedWhileResize := false }

/-- A call of a thread that is alone. -/
def Nodes.call (s : Nodes E) : Op K E A → Nodes E
  | .emplace value =>
    match emplace p h (nodeTraits T) s.storage (s.created, value) with
    | (q, newElement, shouldResize) =>
      let i := bucketOf p h (T.argKey value)
      let created := if newElement then s.created + 1 else s.created
      if shouldResize then
        { storage := q.setBucket i (resizeNodes p h T created (q.storage i)),
          created := created + (q.storage i).bucket.flatten.length }
      else { storage := q, created := created }
  | .find _ | .obtain _ => s
  | .remove key => { s with storage := remove p h (nodeTraits T) s.storage key }

/-- The node that `find(key)` points into. -/
def Nodes.find (s : Nodes E) (key : K) : Option (Node E) :=
  HashStorage.find p h (nodeTraits T) s.storage key

end

/-- The node is in a list of the storage. -/
def Nodes.Alive (s : Nodes E) (n : Node E) : Prop := ∃ i, n ∈ (s.storage.storage i).bucket.flatten

variable {p : Params} {h : Hashing K} {T : Traits K V E A}

/-! ### The two cases of `emplace` -/

section

variable {s : Nodes E} {value : A} {b : Bucket (Node E)}

/-- An `emplace` that finds the key creates no node; it renews the element of the one it found. -/
theorem call_found {n : Node E} (hb : s.storage.storage (bucketOf p h (T.argKey value)) = b)
    (hfind : findLocked h (nodeTraits T) (T.argKey value) b.bucket = some n) :
    s.call p h T (.emplace value) =
      { storage := s.storage.setBucket (bucketOf p h (T.argKey value))
          (b.renewed h (nodeTraits T) (s.created, value)),
        created := s.created } := by
  unfold Nodes.call
  have hemplace : emplace p h (nodeTraits T) s.storage (s.created, value) = _ :=
    emplace_found hb hfind
  simp only [hemplace, Bool.false_eq_true, if_false]
  rfl

/-- An `emplace` that does not find the key creates one node and puts it into the bucket. -/
theorem call_new (hb : s.storage.storage (bucketOf p h (T.argKey value)) = b)
    (hfind : findLocked h (nodeTraits T) (T.argKey value) b.bucket = none) :
    s.call p h T (.emplace value) =
      { storage :=
          { s.storage.setBucket (bucketOf p h (T.argKey value)) (if b.Grows p then
              resizeNodes p h T (s.created + 1) (b.extended h (nodeTraits T) (s.created, value))
            else b.extended h (nodeTraits T) (s.created, value)) with
            size := s.storage.size + 1 },
        created := s.created + 1 + (if b.Grows p then
          (b.extended h (nodeTraits T) (s.created, value)).bucket.flatten.length else 0) } := by
  unfold Nodes.call
  have hemplace : emplace p h (nodeTraits T) s.storage (s.created, value) = _ :=
    emplace_new hb hfind
  simp only [hemplace, decide_eq_true_eq, if_true]
  split
  · simp [Shared.setBucket, nodeTraits]
  · rfl

end

/-! ### Without the identities -/

/-- The elements of a bucket. -/
def Bucket.elements (b : Bucket (Node E)) : Bucket E where
  bucket := b.bucket.map (List.map Node.element)
  size := b.size
  capacity := b.capacity
  resizing := b.resizing
  changedWhileResize := b.changedWhileResize

/-- The storage with the identities of its nodes forgotten. -/
def Nodes.elements (s : Nodes E) : Shared E where
  storage := fun i => (s.storage.storage i).elements
  size := s.storage.size

section

variable {s : Nodes E} {i : Nat} {b : Bucket (Node E)}

/-- Replacing a bucket and forgetting the identities may be done in either order. -/
theorem elements_setBucket (q : Shared (Node E)) (size created : Nat) :
    Nodes.elements { storage := { q.setBucket i b with size := size }, created := created } =
      { (Nodes.elements { storage := q, created := created }).setBucket i b.elements with
        size := size } := by
  unfold Nodes.elements Shared.setBucket
  congr 1
  funext j
  by_cases hj : j = i
  · simp [hj]
  · simp [hj]

/-- The search finds the node whose element the search without identities finds. -/
theorem findLocked_elements (k : K) :
    findLocked h T k b.elements.bucket =
      (findLocked h (nodeTraits T) k b.bucket).map Node.element :=
  lookup_map T.extractKey k

/-- A copy of a node holds the same element. -/
theorem elements_copies (created : Nat) (l : List (Node E)) :
    (copies created l).map Node.element = l.map Node.element := by
  apply List.ext_getElem
  · simp [copies]
  · intro i _ _
    simp [copies]

/-- Without identities, a renewed bucket is the bucket renewed. -/
theorem elements_renewed (created : Nat) (value : A) :
    (b.renewed h (nodeTraits T) (created, value)).elements = b.elements.renewed h T value := by
  unfold Bucket.renewed Bucket.elements
  congr 1
  dsimp only
  rw [slot_map]
  apply map_modify
  intro l
  apply map_modifyFirst_comm
  · exact fun _ => rfl
  · exact fun _ => rfl

/-- Without identities, an extended bucket is the bucket extended. -/
theorem elements_extended (created : Nat) (value : A) :
    (b.extended h (nodeTraits T) (created, value)).elements = b.elements.extended h T value := by
  unfold Bucket.extended Bucket.elements
  congr 1
  dsimp only
  rw [slot_map]
  apply map_modify
  intro l
  rfl

/-- Without identities, a resize of the nodes is a resize of the elements. -/
theorem elements_resize (created : Nat) :
    (resizeNodes p h T created b).elements = resize p h T b.elements := by
  unfold resizeNodes resize Bucket.elements
  congr 1
  dsimp only
  have hsame : (b.bucket.map (List.map Node.element)).flatten =
      [copies created b.bucket.flatten].flatten.map Node.element := by
    rw [List.flatten_singleton, elements_copies, List.map_flatten]
  exact (rehash_map T.extractKey _ hsame).symm

/-- **Refinement.** A call on nodes is the call on their elements. -/
theorem elements_call (s : Nodes E) (op : Op K E A) :
    (s.call p h T op).elements = (call p h T s.elements op).1 := by
  cases op with
  | find key => rfl
  | obtain value => rfl
  | remove key =>
    -- the elements of the nodes that stay are the elements that stay
    have hbucket : (s.elements.storage (bucketOf p h key)).bucket =
        (s.storage.storage (bucketOf p h key)).bucket.map (List.map Node.element) := rfl
    have hremoved (i : Nat) :
        (s.elements.storage (bucketOf p h key)).bucket.modify i
            (List.filter fun v => !h.equal (T.extractKey v) key) =
          ((s.storage.storage (bucketOf p h key)).bucket.modify i
            (List.filter fun v => !h.equal ((nodeTraits T).extractKey v) key)).map
              (List.map Node.element) := by
      apply Eq.symm
      apply map_modify
      intro l
      rw [List.filter_map]
      rfl
    unfold Nodes.call call remove
    dsimp only
    rw [elements_setBucket, hremoved, length_getD_map, hbucket, slot_map, length_getD_map]
    rfl
  | emplace value =>
    cases hfind : findLocked h (nodeTraits T) (T.argKey value)
      (s.storage.storage (bucketOf p h (T.argKey value))).bucket with
    | some n =>
      -- the search without identities finds the element of the same node
      have hfind' : findLocked h T (T.argKey value)
          (s.elements.storage (bucketOf p h (T.argKey value))).bucket = some n.element := by
        show findLocked h T _ (Bucket.elements _).bucket = _
        rw [findLocked_elements, hfind]
        rfl
      rw [call_found rfl hfind, call_emplace_found rfl hfind']
      exact (elements_setBucket ..).trans (by rw [elements_renewed]; rfl)
    | none =>
      have hfind' : findLocked h T (T.argKey value)
          (s.elements.storage (bucketOf p h (T.argKey value))).bucket = none := by
        show findLocked h T _ (Bucket.elements _).bucket = _
        rw [findLocked_elements, hfind]
        rfl
      -- whether the bucket grows does not depend on identities
      have hbucket : (if (s.storage.storage (bucketOf p h (T.argKey value))).Grows p then
            resizeNodes p h T (s.created + 1)
              ((s.storage.storage (bucketOf p h (T.argKey value))).extended h (nodeTraits T)
                (s.created, value))
          else (s.storage.storage (bucketOf p h (T.argKey value))).extended h (nodeTraits T)
            (s.created, value)).elements =
          if (s.elements.storage (bucketOf p h (T.argKey value))).Grows p then
            resize p h T ((s.elements.storage (bucketOf p h (T.argKey value))).extended h T value)
          else (s.elements.storage (bucketOf p h (T.argKey value))).extended h T value := by
        by_cases hgrows : (s.storage.storage (bucketOf p h (T.argKey value))).Grows p
        · have hgrows' : (s.elements.storage (bucketOf p h (T.argKey value))).Grows p := hgrows
          rw [if_pos hgrows, if_pos hgrows', elements_resize, elements_extended]
          rfl
        · have hgrows' : ¬ (s.elements.storage (bucketOf p h (T.argKey value))).Grows p := hgrows
          rw [if_neg hgrows, if_neg hgrows', elements_extended]
          rfl
      rw [call_new rfl hfind, call_emplace_new rfl hfind', elements_setBucket, hbucket]
      rfl

end

/-! ### Copied nodes -/

section

variable {created : Nat} {l : List (Node E)}

/-- A copy is a new node of an old element. -/
theorem mem_copies {m : Node E} (hm : m ∈ copies created l) :
    created ≤ m.id ∧ m.id < created + l.length ∧ ∃ n ∈ l, n.element = m.element := by
  obtain ⟨i, hi, rfl⟩ := List.mem_mapIdx.mp hm
  exact ⟨Nat.le_add_right _ _, Nat.add_lt_add_left hi _, l[i], List.getElem_mem hi, rfl⟩

/-- Every element is copied. -/
theorem exists_copy (created : Nat) {n : Node E} (hn : n ∈ l) :
    ∃ m ∈ copies created l, m.element = n.element := by
  have hmem : n.element ∈ (copies created l).map Node.element := by
    rw [elements_copies]
    exact List.mem_map_of_mem hn
  exact List.mem_map.mp hmem

/-- Copies of nodes with different keys have different keys. -/
theorem pairwise_copies (hl : l.Pairwise (Differ h (nodeTraits T).extractKey)) :
    (copies created l).Pairwise (Differ h (nodeTraits T).extractKey) := by
  have hmap : (l.map Node.element).Pairwise (Differ h T.extractKey) := List.pairwise_map.mpr hl
  rw [← elements_copies created] at hmap
  exact (List.pairwise_map (f := Node.element) (R := Differ h T.extractKey)).mp hmap

/-- The new table of a bucket has the copies in it. -/
theorem resizeNodes_ok (created : Nat) {i : Nat} {b : Bucket (Node E)}
    (ok : BucketOk p h (nodeTraits T) i b) :
    BucketOk p h (nodeTraits T) i (resizeNodes p h T created b) ∧
      ∀ m, m ∈ (resizeNodes p h T created b).bucket.flatten ↔
        m ∈ copies created b.bucket.flatten := by
  have hcap : 0 < b.capacity * p.resizeFactor := Nat.mul_pos ok.capacity p.factor_pos
  obtain ⟨hwf, hmem⟩ := WF.pushAll (copies created b.bucket.flatten) (wf_replicate (h := h) hcap)
    (pairwise_copies ok.wf.pairwise_flatten) (by simp)
  have hmem' : ∀ m, m ∈ (resizeNodes p h T created b).bucket.flatten ↔
      m ∈ copies created b.bucket.flatten := fun m => (hmem m).trans (by simp)
  refine ⟨⟨hwf, fun m hm => ?_, hcap⟩, hmem'⟩
  obtain ⟨-, -, n, hn, heq⟩ := mem_copies ((hmem' m).mp hm)
  show bucketOf p h (T.extractKey m.element) = i
  rw [← heq]
  exact ok.placed n hn

end

/-! ### One call -/

/-- The lists are in order, and every node was created before. -/
structure NodesInv (p : Params) (h : Hashing K) (T : Traits K V E A) (s : Nodes E) : Prop where
  ok : ∀ i, BucketOk p h (nodeTraits T) i (s.storage.storage i)
  old : ∀ i, ∀ n ∈ (s.storage.storage i).bucket.flatten, n.id < s.created

/-- The call is about a key that is not equal to `k`. -/
def Avoids (h : Hashing K) (T : Traits K V E A) (k : K) : Op K E A → Prop
  | .emplace value => h.equal (T.argKey value) k = false
  | .remove key => h.equal key k = false
  | _ => True

/-- The call inserts a new key into the bucket of `k` and makes the bucket grow. -/
def GrowsAt (p : Params) (h : Hashing K) (T : Traits K V E A) (k : K) (s : Nodes E) :
    Op K E A → Prop
  | .emplace value => bucketOf p h (T.argKey value) = bucketOf p h k ∧
      s.find p h T (T.argKey value) = none ∧ (s.storage.storage (bucketOf p h k)).Grows p
  | _ => False

instance (k : K) (s : Nodes E) : (op : Op K E A) → Decidable (GrowsAt p h T k s op)
  | .emplace value =>
    have : Decidable (s.find p h T (T.argKey value) = none) :=
      decidable_of_iff _ Option.isNone_iff_eq_none
    inferInstanceAs (Decidable (_ ∧ _ ∧ _))
  | .find _ | .obtain _ | .remove _ => isFalse not_false

/-- The invariant holds before the first call. -/
theorem NodesInv.init : NodesInv p h T Nodes.init where
  ok _ := ⟨wf_replicate (n := 1) Nat.one_pos, by simp [Nodes.init, Shared.init], Nat.one_pos⟩
  old i n hn := absurd hn (by simp [Nodes.init, Shared.init])

section

variable {s : Nodes E}

/-- A call that leaves one bucket changed. -/
theorem NodesInv.of_setBucket (inv : NodesInv p h T s) {i size created : Nat} {b : Bucket (Node E)}
    (hok : BucketOk p h (nodeTraits T) i b) (hold : ∀ n ∈ b.bucket.flatten, n.id < created)
    (hle : s.created ≤ created) :
    NodesInv p h T
      { storage := { s.storage.setBucket i b with size := size }, created := created } := by
  refine ⟨fun j => ?_, fun j n hn => ?_⟩
  · show BucketOk p h (nodeTraits T) j ((s.storage.setBucket i b).storage j)
    by_cases hj : j = i
    · rw [hj, setBucket_self]
      exact hok
    · rw [setBucket_of_ne hj]
      exact inv.ok j
  · replace hn : n ∈ ((s.storage.setBucket i b).storage j).bucket.flatten := hn
    by_cases hj : j = i
    · rw [hj, setBucket_self] at hn
      exact hold n hn
    · rw [setBucket_of_ne hj] at hn
      exact Nat.lt_of_lt_of_le (inv.old j n hn) hle

end

/-- What a call does to the bucket of its key, as long as it does not grow; `created` is the
    number of nodes after it. -/
structure BucketStep (p : Params) (h : Hashing K) (T : Traits K V E A) (key : K) (i created : Nat)
    (b b' : Bucket (Node E)) : Prop where
  ok : BucketOk p h (nodeTraits T) i b'
  old : ∀ m ∈ b'.bucket.flatten, m.id < created
  stays : ∀ k, h.equal key k = false →
    findLocked h (nodeTraits T) k b'.bucket = findLocked h (nodeTraits T) k b.bucket

section

variable {b : Bucket (Node E)} {i created : Nat} {value : A} {key : K}

/-- When `emplace` finds its key, renewing the element is such a step. -/
theorem BucketStep.renewed (ok : BucketOk p h (nodeTraits T) i b)
    (old : ∀ n ∈ b.bucket.flatten, n.id < created) :
    BucketStep p h T (T.argKey value) i created b
      (b.renewed h (nodeTraits T) (created, value)) := by
  obtain ⟨hwf, hkeys⟩ := ok.wf.assign (slot h b.bucket (T.argKey value))
    (fun c => h.equal (T.extractKey c.element) (T.argKey value))
    (f := fun n => (nodeTraits T).assign n (created, value)) fun n => T.key_assign n.element value
  refine ⟨⟨hwf, fun m hm => ?_, ok.capacity⟩, fun m hm => ?_, fun k hk => ?_⟩
  · obtain ⟨n, hn, heq⟩ := hkeys m hm
    exact heq ▸ ok.placed n hn
  · -- renewing an element leaves it in its node
    have hids : (b.renewed h (nodeTraits T) (created, value)).bucket.map (List.map Node.id) =
        b.bucket.map (List.map Node.id) := by
      have hsame : ∀ l : List (Node E), (modifyFirst
          (fun c => h.equal (T.extractKey c.element) (T.argKey value))
          (fun n => (nodeTraits T).assign n (created, value)) l).map Node.id =
            id (l.map Node.id) := by
        intro l
        apply map_modifyFirst
        exact fun _ => rfl
      exact (map_modify hsame _).trans (List.modify_id ..)
    have hmem : m.id ∈ ((b.renewed h (nodeTraits T) (created, value)).bucket.map
        (List.map Node.id)).flatten := by
      rw [← List.map_flatten]
      exact List.mem_map_of_mem hm
    rw [hids, ← List.map_flatten] at hmem
    obtain ⟨n, hn, heq⟩ := List.mem_map.mp hmem
    exact heq ▸ old n hn
  · have hkey : ∀ n, (nodeTraits T).extractKey ((nodeTraits T).assign n (created, value)) =
        (nodeTraits T).extractKey n := fun n => T.key_assign n.element value
    have hlook := lookup_assign (h := h) ok.wf.nonempty hkey (T.argKey value) k
    rw [if_neg (by simp [hk])] at hlook
    exact hlook

/-- When `emplace` does not find its key, linking a new node is such a step. -/
theorem BucketStep.extended (ok : BucketOk p h (nodeTraits T) i b)
    (old : ∀ n ∈ b.bucket.flatten, n.id < created) (hi : bucketOf p h (T.argKey value) = i)
    (hfind : findLocked h (nodeTraits T) (T.argKey value) b.bucket = none) :
    BucketStep p h T (T.argKey value) i (created + 1) b
      (b.extended h (nodeTraits T) (created, value)) := by
  have hkey : (nodeTraits T).extractKey ((nodeTraits T).construct (created, value)) =
      T.argKey value := T.key_construct value
  have hmem : ∀ m, m ∈ (b.extended h (nodeTraits T) (created, value)).bucket.flatten ↔
      m = (nodeTraits T).construct (created, value) ∨ m ∈ b.bucket.flatten :=
    fun m => mem_flatten_modify_cons (slot_lt ok.wf.nonempty _)
  have hwf := ok.wf.insert (e := (nodeTraits T).construct (created, value)) (by
    rw [hkey]
    exact hfind)
  rw [hkey] at hwf
  refine ⟨⟨hwf, fun m hm => ?_, ok.capacity⟩, fun m hm => ?_, fun k hk => ?_⟩
  · rcases (hmem m).mp hm with rfl | hm
    · rw [hkey]
      exact hi
    · exact ok.placed m hm
  · rcases (hmem m).mp hm with rfl | hm
    · exact Nat.lt_succ_self created
    · exact Nat.lt_succ_of_lt (old m hm)
  · have hlook : lookup h (nodeTraits T).extractKey _ k = _ :=
      lookup_insert ok.wf.nonempty ((nodeTraits T).construct (created, value)) k
    rw [hkey, if_neg (by simp [hk])] at hlook
    exact hlook

/-- The bucket without the elements of a key. -/
def Bucket.erased (h : Hashing K) (T : Traits K V E A) (b : Bucket E) (key : K) : Bucket E :=
  { b with
    bucket := b.bucket.modify (slot h b.bucket key)
      (List.filter fun v => !h.equal (T.extractKey v) key),
    changedWhileResize := true }

/-- Unlinking the node of the key is such a step. -/
theorem BucketStep.erased (ok : BucketOk p h (nodeTraits T) i b)
    (old : ∀ n ∈ b.bucket.flatten, n.id < created) :
    BucketStep p h T key i created b (b.erased h (nodeTraits T) key) := by
  obtain ⟨hwf, hmem⟩ := ok.wf.erase (slot h b.bucket key)
    fun n => !h.equal ((nodeTraits T).extractKey n) key
  refine ⟨⟨hwf, fun m hm => ok.placed m (hmem m hm), ok.capacity⟩,
    fun m hm => old m (hmem m hm), fun k hk => ?_⟩
  have hlook : lookup h (nodeTraits T).extractKey _ k = _ := lookup_erase ok.wf.nonempty key k
  rw [if_neg (by simp [hk])] at hlook
  exact hlook

end

section

variable {s : Nodes E} {k : K}

/-- Bucket `i` is replaced. -/
def Nodes.put (s : Nodes E) (i : Nat) (b : Bucket (Node E)) (size created : Nat) : Nodes E where
  storage := { s.storage.setBucket i b with size := size }
  created := created

/-- After a bucket is put in place, the keys that hash to it are searched in it, the others as
    before. -/
theorem find_put (i : Nat) (b : Bucket (Node E)) (size created : Nat) :
    (s.put i b size created).find p h T k =
      if bucketOf p h k = i then findLocked h (nodeTraits T) k b.bucket else s.find p h T k :=
  find_setBucket s.storage i b k

/-- What a call does: nothing to the nodes, a step of one bucket, or a step and a new table for
    the bucket. -/
theorem NodesInv.call_cases (inv : NodesInv p h T s) (op : Op K E A) :
    (s.call p h T op = s ∧ ∀ k, ¬ GrowsAt p h T k s op) ∨
    ∃ key b size created, (∀ k, Avoids h T k op → h.equal key k = false) ∧
      BucketStep p h T key (bucketOf p h key) created
        (s.storage.storage (bucketOf p h key)) b ∧ s.created ≤ created ∧
      ((s.call p h T op = s.put (bucketOf p h key) b size created ∧
          ∀ k, ¬ GrowsAt p h T k s op) ∨
        (s.call p h T op = s.put (bucketOf p h key) (resizeNodes p h T created b) size
            (created + b.bucket.flatten.length) ∧
          ∀ k, GrowsAt p h T k s op ↔ bucketOf p h key = bucketOf p h k)) := by
  cases op with
  | find key => exact .inl ⟨rfl, fun _ => not_false⟩
  | obtain value => exact .inl ⟨rfl, fun _ => not_false⟩
  | remove key =>
    exact .inr ⟨key, _, _, _, fun _ hk => hk, BucketStep.erased (inv.ok _) (inv.old _),
      Nat.le_refl _, .inl ⟨rfl, fun _ => not_false⟩⟩
  | emplace value =>
    -- a new key adds a node, and may then copy all nodes of its bucket
    have ok := inv.ok (bucketOf p h (T.argKey value))
    have old := inv.old (bucketOf p h (T.argKey value))
    cases hfind : findLocked h (nodeTraits T) (T.argKey value)
      (s.storage.storage (bucketOf p h (T.argKey value))).bucket with
    | some n =>
      refine .inr ⟨T.argKey value, _, _, _, fun _ hk => hk, BucketStep.renewed ok old,
        Nat.le_refl _, .inl ⟨call_found rfl hfind, fun k hgrows => ?_⟩⟩
      obtain ⟨-, hnone, -⟩ := hgrows
      exact absurd (hfind.symm.trans hnone) (by simp)
    | none =>
      refine .inr ⟨T.argKey value, _, s.storage.size + 1, _, fun _ hk => hk,
        BucketStep.extended ok old rfl hfind, Nat.le_succ _, ?_⟩
      by_cases hgrows : (s.storage.storage (bucketOf p h (T.argKey value))).Grows p
      · refine .inr ⟨?_, fun k => ⟨fun hg => hg.1, fun hi => ⟨hi, hfind, hi ▸ hgrows⟩⟩⟩
        rw [call_new rfl hfind, if_pos hgrows, if_pos hgrows]
        rfl
      · refine .inl ⟨?_, fun k hg => hgrows (hg.1.symm ▸ hg.2.2)⟩
        rw [call_new rfl hfind, if_neg hgrows, if_neg hgrows]
        rfl

/-- **Step lemma.** -/
theorem NodesInv.call (inv : NodesInv p h T s) (op : Op K E A) :
    NodesInv p h T (s.call p h T op) ∧ s.created ≤ (s.call p h T op).created := by
  rcases inv.call_cases op with ⟨hcall, -⟩ | ⟨key, b, size, created, -, hstep, hle, hcase⟩
  · rw [hcall]
    exact ⟨inv, Nat.le_refl _⟩
  · rcases hcase with ⟨hcall, -⟩ | ⟨hcall, -⟩
    · rw [hcall]
      exact ⟨inv.of_setBucket hstep.ok hstep.old hle, hle⟩
    · have hle' : s.created ≤ created + b.bucket.flatten.length := Nat.le_add_right_of_le hle
      obtain ⟨hok, hmem⟩ := resizeNodes_ok created hstep.ok
      rw [hcall]
      exact ⟨inv.of_setBucket hok (fun m hm => (mem_copies ((hmem m).mp hm)).2.1) hle', hle'⟩

/-- A call about another key that does not make the bucket grow leaves the node of `k` … -/
theorem NodesInv.find_call (inv : NodesInv p h T s) {op : Op K E A} (hother : Avoids h T k op)
    (hstay : ¬ GrowsAt p h T k s op) : (s.call p h T op).find p h T k = s.find p h T k := by
  rcases inv.call_cases op with ⟨hcall, -⟩ | ⟨key, b, size, created, hkey, hstep, -, hcase⟩
  · rw [hcall]
  · rcases hcase with ⟨hcall, -⟩ | ⟨hcall, hgrows⟩
    · rw [hcall, find_put]
      split
      · rename_i hi
        rw [hstep.stays k (hkey k hother), ← hi]
        rfl
      · rfl
    · rw [hcall, find_put, if_neg fun hi => hstay ((hgrows k).mpr hi.symm)]

/-- … and one that does puts its element in a new node. -/
theorem NodesInv.find_call_grows (inv : NodesInv p h T s) {op : Op K E A}
    (hother : Avoids h T k op) (hgrow : GrowsAt p h T k s op) {n : Node E}
    (hfind : s.find p h T k = some n) :
    ∃ m, (s.call p h T op).find p h T k = some m ∧ s.created ≤ m.id := by
  rcases inv.call_cases op with ⟨-, hnone⟩ | ⟨key, b, size, created, hkey, hstep, hle, hcase⟩
  · exact absurd hgrow (hnone k)
  · rcases hcase with ⟨-, hnone⟩ | ⟨hcall, hgrows⟩
    · exact absurd hgrow (hnone k)
    · have hi := (hgrows k).mp hgrow
      obtain ⟨hok, hmem⟩ := resizeNodes_ok created hstep.ok
      -- the element is in the bucket after the insertion, and so among the copies
      have hbefore : findLocked h (nodeTraits T) k b.bucket = some n := by
        rw [hstep.stays k (hkey k hother), hi]
        exact hfind
      obtain ⟨hn, heq⟩ := hstep.ok.wf.lookup_eq_some_iff.mp hbefore
      obtain ⟨m, hm, helement⟩ := exists_copy created hn
      refine ⟨m, ?_, Nat.le_trans hle (mem_copies hm).1⟩
      rw [hcall, find_put, if_pos hi.symm]
      refine hok.wf.lookup_eq_some_iff.mpr ⟨(hmem m).mpr hm, ?_⟩
      show h.equal (T.extractKey m.element) k = true
      rw [helement]
      exact heq

/-! ### Sequences of calls -/

/-- The storage after a sequence of calls. -/
def Nodes.calls (p : Params) (h : Hashing K) (T : Traits K V E A) (s : Nodes E)
    (ops : List (Op K E A)) : Nodes E :=
  ops.foldl (Nodes.call p h T) s

/-- **Refinement.** A sequence of calls on nodes is that sequence on their elements. -/
theorem elements_calls (s : Nodes E) (ops : List (Op K E A)) :
    (s.calls p h T ops).elements = calls p h T s.elements ops := by
  induction ops generalizing s with
  | nil => rfl
  | cons op ops ih =>
    show ((s.call p h T op).calls p h T ops).elements = calls p h T (call p h T s.elements op).1 ops
    rw [ih, elements_call]

/-- The invariant holds after every sequence of calls. -/
theorem NodesInv.calls (inv : NodesInv p h T s) (ops : List (Op K E A)) :
    NodesInv p h T (s.calls p h T ops) := by
  induction ops generalizing s with
  | nil => exact inv
  | cons op ops ih => exact ih (inv.call op).1

/-- A node that is newer than `bound` is only replaced by newer ones. -/
theorem NodesInv.find_newer (inv : NodesInv p h T s) {ops : List (Op K E A)}
    (hothers : ∀ op ∈ ops, Avoids h T k op) {bound : Nat} (hbound : bound ≤ s.created)
    (hfind : ∃ m, s.find p h T k = some m ∧ bound ≤ m.id) :
    ∃ m, (s.calls p h T ops).find p h T k = some m ∧ bound ≤ m.id := by
  induction ops generalizing s with
  | nil => exact hfind
  | cons op ops ih =>
    have hother := hothers op (List.mem_cons_self ..)
    obtain ⟨inv', hle⟩ := inv.call op
    refine ih inv' (fun op hop => hothers op (List.mem_cons_of_mem _ hop))
      (Nat.le_trans hbound hle) ?_
    obtain ⟨m, hm, hnew⟩ := hfind
    by_cases hgrow : GrowsAt p h T k s op
    · obtain ⟨m', hm', hnew'⟩ := inv.find_call_grows hother hgrow hm
      exact ⟨m', hm', Nat.le_trans hbound hnew'⟩
    · exact ⟨m, (inv.find_call hother hgrow).trans hm, hnew⟩

/-- The lookup finds the same node exactly when no call has made the bucket grow. -/
theorem NodesInv.find_calls (inv : NodesInv p h T s) {ops : List (Op K E A)}
    (hothers : ∀ op ∈ ops, Avoids h T k op) {n : Node E} (hfind : s.find p h T k = some n) :
    (s.calls p h T ops).find p h T k = some n ↔
      Along (Nodes.call p h T) (fun s op => ¬ GrowsAt p h T k s op) s ops := by
  induction ops generalizing s with
  | nil => exact ⟨fun _ => trivial, fun _ => hfind⟩
  | cons op ops ih =>
    have hother := hothers op (List.mem_cons_self ..)
    have hrest := fun op hop => hothers op (List.mem_cons_of_mem _ hop)
    obtain ⟨inv', -⟩ := inv.call op
    by_cases hgrow : GrowsAt p h T k s op
    · -- from now on the node is one that was created later
      obtain ⟨m, hm, hnew⟩ := inv'.find_newer hrest (inv.call op).2
        (inv.find_call_grows hother hgrow hfind)
      refine ⟨fun hsame => ?_, fun hstay => absurd hgrow hstay.1⟩
      obtain rfl := Option.some.inj (hm.symm.trans hsame)
      have hold := inv.old _ m ((inv.ok _).wf.lookup_eq_some_iff.mp hfind).1
      omega
    · have hiff := ih inv' hrest ((inv.find_call hother hgrow).trans hfind)
      exact hiff.trans ⟨fun hstay => ⟨hgrow, hstay⟩, fun hstay => hstay.2⟩

end

/-- **Identity of nodes.** For every state of a `hash_set` that calls lead to, every key `k` that is
    found in it, in node `n`, and every following calls about other keys, `n` is alive and
    the node in which `k` is found after them exactly when none of them has made the bucket of
    `k` grow. -/
theorem find_stays_iff (p : Params) (h : Hashing K) (before ops : List (Op K K K)) (k : K)
    (n : Node K)
    (hfind : (Nodes.init.calls p h (setTraits K) before).find p h (setTraits K) k = some n)
    (hothers : ∀ op ∈ ops, Avoids h (setTraits K) k op) :
    let s := Nodes.init.calls p h (setTraits K) before
    (s.calls p h (setTraits K) ops).Alive n ∧
        (s.calls p h (setTraits K) ops).find p h (setTraits K) k = some n ↔
      Along (Nodes.call p h (setTraits K)) (fun s op => ¬ GrowsAt p h (setTraits K) k s op) s
        ops := by
  have inv := (NodesInv.init (p := p) (h := h) (T := setTraits K)).calls before
  refine Iff.trans (and_iff_right_of_imp fun hsame => ?_) (inv.find_calls hothers hfind)
  exact ⟨_, (((inv.calls ops).ok _).wf.lookup_eq_some_iff.mp hsame).1⟩

/-- After the fourth element there is room for the fifth: it leaves the node of `1`. -/
theorem find_stays_iff_five :
    let s := Nodes.init.calls oneBucket natHashing (setTraits Nat)
      [.emplace 1, .emplace 2, .emplace 3, .emplace 4]
    let s' := s.calls oneBucket natHashing (setTraits Nat) [.emplace 5, .remove 2]
    s'.Alive { id := 10, element := 1 } ∧
      s'.find oneBucket natHashing (setTraits Nat) 1 = some { id := 10, element := 1 } :=
  (find_stays_iff oneBucket natHashing [.emplace 1, .emplace 2, .emplace 3, .emplace 4]
    [.emplace 5, .remove 2] 1 { id := 10, element := 1 } (by decide)
    (by simp [Avoids, natHashing, setTraits])).mpr (by decide)

/-- The insertion of `2` makes the bucket grow: the node that `find(1)` has returned is gone, and
    the next `find(1)` returns another one. -/
theorem node_replaced :
    let s := Nodes.init.calls oneBucket natHashing (setTraits Nat) [.emplace 1]
    let s' := s.calls oneBucket natHashing (setTraits Nat) [.emplace 2]
    s.find oneBucket natHashing (setTraits Nat) 1 = some { id := 1, element := 1 } ∧
      ¬ s'.Alive { id := 1, element := 1 } ∧
      s'.find oneBucket natHashing (setTraits Nat) 1 = some { id := 4, element := 1 } := by
  refine ⟨by decide, ?_, by decide⟩
  rintro ⟨i, hmem⟩
  -- all the other buckets are empty
  cases i with
  | zero => exact absurd hmem (by decide)
  | succ i => exact List.not_mem_nil hmem

end HopeThreading.HashStorage
