import Mathlib.Data.Finset.Insert
import HopeThreading.Sync.RwSpinlockUse

namespace HopeThreading.StlChunkedSet

open Transition

/-!
# `stl_chunked_set`

A set of `ChunkCount` chunks, of which there is at least one, each a `std::unordered_set` with a
lock of its own; a key is in the chunk of its hash.  `emplace` takes the lock of the chunk
exclusively and `find` takes it shared.  The chunks are independent of each other, and together
they are one set (`setObject`).

`find` returns an iterator, which may be read after the lock is released; here it returns the
element that the iterator points to then.
-/

/-- The calls of the set. -/
inductive Op (K : Type*)
  | emplace (k : K)
  | find (k : K)
  deriving DecidableEq

/-- What a call answers. -/
inductive Result (K : Type*)
  | emplaced
  | found (element : Option K)
  deriving DecidableEq

/-- Where a call is inside of `std::unordered_set`. -/
inductive Access
  /-- Look for the key. -/
  | look
  /-- Link the new element. -/
  | link

variable {ι K : Type*} [DecidableEq K]

/-- The key of a call, which picks the chunk. -/
def Op.key : Op K → K
  | .emplace k => k
  | .find k => k

/-- How a call takes the lock of its chunk: `emplace` alone, `find` with other readers. -/
def Op.mode : Op K → Mode
  | .emplace _ => .exclusive
  | .find _ => .shared

/-- The next access to the chunk. -/
def access : Op K → Finset K → Access → Finset K × (Access ⊕ Result K)
  | .emplace k, set, .look => if k ∈ set then (set, .inr .emplaced) else (set, .inl .link)
  | .emplace k, set, .link => (insert k set, .inr .emplaced)
  | .find k, set, _ => (set, .inr (.found (if k ∈ set then some k else none)))

/-- What is done under the shared lock changes no chunk. -/
theorem access_of_shared {op : Op K} {set : Finset K} {b : Access} (h : op.mode = .shared) :
    (access op set b).1 = set := by
  cases op with
  | emplace k => exact absurd h (by simp [Op.mode])
  | find k => rfl

/-- `std::hash<TKey>{}(k) % ChunkCount`, an index of `m_storage`; `hash` is `std::hash<TKey>`. -/
def chunkOf (hash : K → Nat) (chunkCount : Nat) [NeZero chunkCount] (k : K) : Fin chunkCount :=
  Fin.ofNat chunkCount (hash k)

/-- The chunks. -/
def sections (hash : K → Nat) (chunkCount : Nat) [NeZero chunkCount] :
    Sections (Fin chunkCount) (Finset K) (Op K) Access (Result K) where
  init _ := ∅
  place op := chunkOf hash chunkCount op.key
  mode := Op.mode
  begin _ := .look
  step := access
  reads := access_of_shared

/-- The set that the chunks are together. -/
def setObject (K : Type*) : SeqObject (Set K) (Op K) (Result K) where
  init := ∅
  next s
    | .emplace k => insert k s
    | .find _ => s
  returns s
    | .emplace _, .emplaced => True
    | .find k, .found element => ∀ x, element = some x ↔ x = k ∧ k ∈ s
    | _, _ => False

/-- One chunk, for itself. -/
def chunkObject (K : Type*) [DecidableEq K] : SeqObject (Finset K) (Op K) (Result K) where
  init := ∅
  next s
    | .emplace k => insert k s
    | .find _ => s
  returns s
    | .emplace _, res => res = .emplaced
    | .find k, res => res = .found (if k ∈ s then some k else none)

variable {hash : K → Nat} {chunkCount : Nat} [NeZero chunkCount]

/-- Before its last access a call has written nothing. -/
theorem reaches_same {op : Op K} {set set' : Finset K} {b : Access}
    (h : Guarded.Reaches (sections hash chunkCount) op set b set') : set' = set := by
  induction h with
  | begin => rfl
  | @step b b' d' d'' before hstep ih =>
    subst ih
    change access op d' b = (d'', .inl b') at hstep
    cases op with
    | emplace k =>
      cases b with
      | look =>
        simp only [access] at hstep
        split at hstep <;> cases hstep
        rfl
      | link => exact absurd hstep (by simp [access])
    | find k => exact absurd hstep (by simp [access])

/-- A chunk is a set. -/
theorem chunk_implements (i : Fin chunkCount) :
    Guarded.Implements (sections hash chunkCount) i (chunkObject K) id := by
  refine ⟨rfl, ?_⟩
  rintro op d d' r - ⟨b, d₁, hreach, hstep⟩
  obtain rfl := reaches_same hreach
  change access op d₁ b = (d', .inr r) at hstep
  cases op with
  | emplace k =>
    cases b with
    | look =>
      simp only [access] at hstep
      split at hstep
      · rename_i hmem
        cases hstep
        exact ⟨rfl, (Finset.insert_eq_of_mem hmem).symm⟩
      · exact absurd hstep (by simp)
    | link =>
      cases hstep
      exact ⟨rfl, rfl⟩
  | find k =>
    cases hstep
    exact ⟨rfl, rfl⟩

/-- The elements of all chunks. -/
def contents (hash : K → Nat) (chunkCount : Nat) [NeZero chunkCount]
    (chunks : Fin chunkCount → Finset K) : Set K :=
  { k | k ∈ chunks (chunkOf hash chunkCount k) }

/-- The chunks together are one set: what a call does to its chunk, it does to the set of all
    keys. -/
theorem contents_refines : SeqObject.Refines
    (SeqObject.family (fun _ => chunkObject K) (sections hash chunkCount).place) (setObject K)
    (contents hash chunkCount) := by
  refine ⟨?_, fun chunks op => ?_, fun chunks op res hres => ?_⟩
  · ext k
    simp [contents, SeqObject.family, chunkObject, setObject]
  · cases op with
    | emplace k =>
      ext x
      simp only [contents, SeqObject.family, chunkObject, setObject, sections, Op.key,
        Set.mem_ofPred_eq, Set.mem_insert_iff]
      by_cases hchunk : chunkOf hash chunkCount x = chunkOf hash chunkCount k
      · rw [hchunk, Function.update_self, Finset.mem_insert]
      · rw [Function.update_of_ne hchunk]
        have hne : x ≠ k := fun heq => hchunk (by rw [heq])
        simp [hne]
    | find k =>
      show contents hash chunkCount (Function.update chunks _ _) = contents hash chunkCount chunks
      exact congrArg _ (Function.update_eq_self _ _)
  · cases op with
    | emplace k =>
      obtain rfl : res = .emplaced := hres
      trivial
    | find k =>
      obtain rfl : res =
          .found (if k ∈ chunks (chunkOf hash chunkCount k) then some k else none) := hres
      intro x
      by_cases hmem : k ∈ chunks (chunkOf hash chunkCount k)
      · rw [if_pos hmem, Option.some.injEq, eq_comm]
        exact (and_iff_left hmem).symm
      · rw [if_neg hmem]
        exact iff_of_false (by simp) fun h => hmem h.2

/-- What the users of the set rely on. -/
structure Safe [DecidableEq ι] {σ π : Type*} (hash : K → Nat) (chunkCount : Nat)
    [NeZero chunkCount] (tr : List (Guarded.Event ι (Op K) (Result K)))
    (c : Config ι (Guarded.Memory (Fin chunkCount) σ (Finset K))
      (Guarded.Caller (Fin chunkCount) π (Op K) Access (Result K))) : Prop where
  guarded : Guarded.Linearizable (sections hash chunkCount) tr c
  /-- The calls return what they return one after the other on one set. -/
  legal : (setObject K).Legal (Guarded.operations tr)
  /-- While nobody writes, the chunks hold what the calls have inserted. -/
  contents : (∀ i, Guarded.Unwritten (sections hash chunkCount) i c) →
    contents hash chunkCount c.shared.data = (setObject K).after (Guarded.operations tr)

/-- **Linearizability.** For every hash, any number of chunks above zero, and fewer than
    `2 ^ 12` threads. -/
theorem chunked_safe_of_run [Fintype ι] [DecidableEq ι] (hfew : Fintype.card ι < 2 ^ 12)
    {tr : List (Guarded.Event ι (Op K) (Result K))}
    {c : Config ι (Guarded.Memory (Fin chunkCount) RwSpinlock.Shared (Finset K))
      (Guarded.Caller (Fin chunkCount) RwSpinlock.Local (Op K) Access (Result K))}
    (run : (Guarded.program (RwSpinlock.guard hfew) (sections hash chunkCount)).machine.Run tr c) :
    Safe hash chunkCount tr c := by
  have hlin := Guarded.linearizable_of_run run
  obtain ⟨hlegal, hafter⟩ := hlin.legal fun i => @chunk_implements _ _ hash chunkCount _ i
  refine ⟨hlin, contents_refines.legal hlegal, fun hun => ?_⟩
  rw [← (@contents_refines _ _ hash chunkCount _).after]
  exact congrArg (StlChunkedSet.contents hash chunkCount) (hafter hun)

/-- Two threads insert the keys `1` and `9` into one of eight chunks, and one finds the other's. -/
theorem chunked_safe_of_run_two : ∃ tr c,
    (Guarded.program (RwSpinlock.guard (ι := Fin 2) (by decide))
      (sections (fun k : Nat => k) 8)).machine.Run tr c ∧ c.shared.data 1 = {1, 9} ∧
    Guarded.answers 1 tr = [(.emplace 9, .emplaced), (.find 1, .found (some 1))] ∧
    Safe (fun k : Nat => k) 8 tr c := by
  obtain ⟨tr, c, run, hdata, hanswers⟩ := Machine.exists_run
    (M := (Guarded.program (RwSpinlock.guard (ι := Fin 2) (by decide))
      (sections (fun k : Nat => k) 8)).machine)
    (P := fun tr c => c.shared.data 1 = {1, 9} ∧
      Guarded.answers 1 tr = [(.emplace 9, .emplaced), (.find 1, .found (some 1))])
    [(0, .call (.emplace 1)), (0, .step), (1, .call (.emplace 9)), (1, .step), (0, .step),
      (1, .step), (0, .step), (0, .step), (0, .step), (1, .step), (1, .step), (1, .step),
      (1, .step),
      (1, .step), (1, .step), (1, .call (.find 1)), (1, .step), (1, .step), (1, .step), (1, .step)]
    (by decide +kernel)
  exact ⟨tr, c, run, hdata, hanswers, chunked_safe_of_run _ run⟩

end HopeThreading.StlChunkedSet
