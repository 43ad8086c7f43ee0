import HopeThreading.Queue.SpscInv

namespace HopeThreading.SpscQueue

open Transition Memory

/-!
# `spsc_queue` — exactly once, in order

The constructor links `pre_alloc` values and takes them out again, so the chain it leaves to
the threads is long and empty (`Built`).  From then on the values taken out are a prefix of
the values put in, and the nodes the producer recycles cannot be reached from `m_tail`
(`exactlyOnce_of_run`).
-/

variable {α : Type*}

/-! ### The constructor -/

/-- One for a producer that has still to link its value. -/
def toLink : Producer α → Nat
  | .idle | .storeHead _ => 0
  | _ => 1

/-- One for a consumer that has still to take its value. -/
def toTake : Consumer α → Nat
  | .idle => 0
  | _ => 1

/-- How far the constructor is, and what has been observed since it is done. -/
def Built (preAlloc : Nat) (g : Ghost α) (tr : List (Event α)) (s : State α) : Prop :=
  match s.phase with
  | .filling left => tr = [] ∧ s.consumer = .idle ∧ g.taken = 0 ∧
      g.accepted.length + toLink s.producer + left = preAlloc
  | .emptying left => tr = [] ∧ s.producer = .idle ∧ g.accepted.length = preAlloc ∧
      g.taken + toTake s.consumer + left = preAlloc
  | .ready => preAlloc ≤ g.taken ∧ enqueued tr = g.accepted.drop preAlloc ∧
      dequeued tr = g.delivered.drop preAlloc

section

variable {q q' : Shared α} {l l' : Producer α} {m m' : Consumer α} {es : List (Event α)}
  {g g' : Ghost α} {preAlloc : Nat} {dummy : α} {s s' : State α} {tr : List (Event α)}

/-- What an access of `enqueue` shows. -/
theorem enqueue_events (h : enqueue q l = some (q', l', es)) :
    dequeued es = [] ∧ (l' ≠ .faulted → (enqueued es).length + toLink l' = toLink l) := by
  -- a node that is used is alive unless the access faults, and only the link shows an event
  cases l with
  | idle => exact absurd h (by simp [enqueue])
  | faulted => exact absurd h (by simp [enqueue])
  | compareCopy v =>
    simp only [enqueue] at h
    split at h <;> cases h <;> exact ⟨rfl, fun _ => rfl⟩
  | loadTail v => cases h; exact ⟨rfl, fun _ => rfl⟩
  | compareAgain v =>
    simp only [enqueue] at h
    split at h <;> cases h <;> exact ⟨rfl, fun _ => rfl⟩
  | takeFirst v =>
    simp only [enqueue] at h
    split at h
    · cases h; exact ⟨rfl, fun hne => absurd rfl hne⟩
    · split at h <;> cases h
      · exact ⟨rfl, fun hne => absurd rfl hne⟩
      · exact ⟨rfl, fun _ => rfl⟩
  | writeValue v n =>
    simp only [enqueue] at h
    split at h <;> cases h
    · exact ⟨rfl, fun hne => absurd rfl hne⟩
    · exact ⟨rfl, fun _ => rfl⟩
  | newNode v => cases h; exact ⟨rfl, fun _ => rfl⟩
  | clearNext v n =>
    simp only [enqueue] at h
    split at h <;> cases h
    · exact ⟨rfl, fun hne => absurd rfl hne⟩
    · exact ⟨rfl, fun _ => rfl⟩
  | storeLink v n =>
    simp only [enqueue] at h
    split at h <;> cases h
    · exact ⟨rfl, fun hne => absurd rfl hne⟩
    · exact ⟨rfl, fun _ => rfl⟩
  | storeHead n => cases h; exact ⟨rfl, fun _ => rfl⟩

/-- What an access of `try_dequeue` shows. -/
theorem tryDequeue_events (h : tryDequeue q m = some (q', m', es)) :
    enqueued es = [] ∧ (m' ≠ .faulted → q.tailNext ≠ some none →
      (dequeued es).length + toTake m' = toTake m) := by
  -- only the last access shows an event, and only an empty queue ends a call before it
  cases m with
  | idle => exact absurd h (by simp [tryDequeue])
  | faulted => exact absurd h (by simp [tryDequeue])
  | testNext =>
    simp only [tryDequeue] at h
    split at h
    · cases h; exact ⟨rfl, fun hne => absurd rfl hne⟩
    · rename_i hnull
      cases h
      exact ⟨rfl, fun _ hnext => absurd hnull hnext⟩
    · cases h; exact ⟨rfl, fun _ _ => rfl⟩
  | readNext =>
    simp only [tryDequeue] at h
    split at h <;> cases h
    · exact ⟨rfl, fun hne => absurd rfl hne⟩
    · exact ⟨rfl, fun _ _ => rfl⟩
  | readValue p =>
    simp only [tryDequeue] at h
    split at h <;> cases h
    · exact ⟨rfl, fun hne => absurd rfl hne⟩
    · exact ⟨rfl, fun _ _ => rfl⟩
  | readNextAgain v =>
    simp only [tryDequeue] at h
    split at h <;> cases h
    · exact ⟨rfl, fun hne => absurd rfl hne⟩
    · exact ⟨rfl, fun _ _ => rfl⟩
  | storeTail v p => cases h; exact ⟨rfl, fun _ _ => rfl⟩

/-- As many values were delivered as nodes were taken. -/
theorem Inv.delivered_length (inv : Inv g q l m) : g.delivered.length = g.taken := by
  rw [Ghost.delivered, List.length_take, Nat.min_eq_left inv.taken_le]

/-- Under the invariant neither side has used a node that is gone. -/
theorem Inv.not_faulted (inv : Inv g q l m) : l ≠ .faulted ∧ m ≠ .faulted := by
  constructor
  · rintro rfl
    exact inv.producer
  · rintro rfl
    exact inv.consumer

/-- Before the last value is taken out there is a next node. -/
theorem Inv.tailNext_ne_none (inv : Inv g q l m) (h : g.taken < g.accepted.length) :
    q.tailNext ≠ some none := by
  have hlen := inv.length
  rw [inv.tailNext, List.getElem?_eq_getElem (by omega)]
  simp

/-- An access of a constructor that is filling the queue. -/
theorem Inv.fill (inv : Inv g s.shared s.producer s.consumer) (built : Built preAlloc g tr s)
    {left : Nat} (hphase : s.phase = .filling left)
    (h : enqueue s.shared s.producer = some (q', l', es)) :
    ∃ g', Inv g' q' l' s.consumer ∧ Built preAlloc g' tr { s with shared := q', producer := l' } ∧
      (Stocked g s.shared s.producer → Stocked g' q' l') ∧ g'.first = 0 := by
  unfold Built at built
  rw [hphase] at built
  obtain ⟨htr, hidle, htaken, hsum⟩ := built
  obtain ⟨g', inv', ⟨hacc, hdel⟩, hmoves⟩ := inv.enqueue_moves h
  obtain ⟨hdeq, hlink⟩ := enqueue_events h
  have hsum' := hlink inv'.not_faulted.1
  have htaken' : g'.taken = 0 := by
    rw [← inv'.delivered_length, hdel, hdeq, List.append_nil, inv.delivered_length, htaken]
  refine ⟨g', inv', ?_, hmoves.stocked, ?_⟩
  · unfold Built
    rw [hphase]
    refine ⟨htr, hidle, htaken', ?_⟩
    show g'.accepted.length + toLink l' + left = preAlloc
    rw [hacc, List.length_append]
    omega
  · -- nothing has been taken out that could be used again
    have := inv'.first_le.trans inv'.copy_le
    omega

/-- An access of a constructor that is emptying it again. -/
theorem Inv.empty (inv : Inv g s.shared s.producer s.consumer) (built : Built preAlloc g tr s)
    {left : Nat} (hphase : s.phase = .emptying left)
    (h : tryDequeue s.shared s.consumer = some (q', m', es)) :
    ∃ taken, Inv { g with taken } q' s.producer m' ∧
      Built preAlloc { g with taken } tr { s with shared := q', consumer := m' } ∧
      q'.heap = s.shared.heap := by
  unfold Built at built
  rw [hphase] at built
  obtain ⟨htr, hidle, hacc, hsum⟩ := built
  obtain ⟨taken, inv', ⟨hacc', hdel⟩, hheap⟩ := inv.tryDequeue_moves h
  obtain ⟨henq, htake⟩ := tryDequeue_events h
  have hpos : 0 < toTake s.consumer := by
    cases hm : s.consumer with
    | idle =>
      rw [hm] at h
      exact absurd h (by simp [tryDequeue])
    | _ => exact Nat.one_pos
  -- there is a value for every call that is left
  have hsum' := htake inv'.not_faulted.2 (inv.tailNext_ne_none (by omega))
  refine ⟨taken, inv', ?_, hheap⟩
  unfold Built
  rw [hphase]
  refine ⟨htr, hidle, ?_, ?_⟩
  · rw [hacc', henq, List.append_nil, hacc]
  · show taken + toTake m' + left = preAlloc
    have hlen := inv'.delivered_length
    rw [hdel, List.length_append, inv.delivered_length] at hlen
    have hlen' : g.taken + (dequeued es).length = taken := hlen
    omega

/-- **The constructor.** -/
theorem Inv.construct_moves (inv : Inv g s.shared s.producer s.consumer)
    (built : Built preAlloc g tr s) (h : construct preAlloc dummy s = some s') :
    ∃ g', Inv g' s'.shared s'.producer s'.consumer ∧ Built preAlloc g' tr s' ∧
      (Stocked g s.shared s.producer → Stocked g' s'.shared s'.producer) ∧
      (g.first = 0 → g'.first = 0) := by
  unfold construct at h
  have hbuilt := built
  unfold Built at hbuilt
  cases hphase : s.phase with
  | ready =>
    rw [hphase] at h
    exact absurd h (by simp)
  | filling left =>
    -- the first loop: `enqueue` of a dummy, as often as `pre_alloc` says
    rw [hphase] at h hbuilt
    obtain ⟨htr, hidle, htaken, hsum⟩ := hbuilt
    simp only at h
    split at h
    · rename_i k hl
      cases h
      refine ⟨g, inv.producer_quiet (by rw [hl]; rfl) trivial trivial,
        ⟨htr, hidle, htaken, ?_⟩, fun hstock => ?_, id⟩
      · rw [hl] at hsum
        show g.accepted.length + 1 + k = preAlloc
        have : g.accepted.length + 0 + (k + 1) = preAlloc := hsum
        omega
      · rw [hl] at hstock
        exact hstock
    · rename_i hl
      cases h
      refine ⟨g, inv, ⟨htr, hl, ?_, ?_⟩, id, id⟩
      · rw [hl] at hsum
        exact hsum
      · rw [htaken, hidle]
        exact Nat.zero_add _
    · obtain ⟨⟨q', l', es⟩, hstep, rfl⟩ := Option.map_eq_some_iff.mp h
      obtain ⟨g', inv', built', hstock, hfirst⟩ := inv.fill built hphase hstep
      exact ⟨g', inv', built', hstock, fun _ => hfirst⟩
  | emptying left =>
    -- the second loop: `try_dequeue`, so that all nodes are free
    rw [hphase] at h hbuilt
    obtain ⟨htr, hidle, hacc, hsum⟩ := hbuilt
    simp only at h
    split at h
    · rename_i k hm
      cases h
      refine ⟨g, { inv with consumer := trivial }, ⟨htr, hidle, hacc, ?_⟩, id, id⟩
      rw [hm] at hsum
      show g.taken + 1 + k = preAlloc
      have : g.taken + 0 + (k + 1) = preAlloc := hsum
      omega
    · rename_i hm
      cases h
      rw [hm] at hsum
      have htaken : g.taken = preAlloc := hsum
      refine ⟨g, inv, ⟨htaken.ge, ?_, ?_⟩, id, id⟩
      · rw [htr, List.drop_eq_nil_of_le hacc.le]
        rfl
      · rw [htr, List.drop_eq_nil_of_le (inv.delivered_length.trans htaken).le]
        rfl
    · obtain ⟨⟨q', m', es⟩, hstep, rfl⟩ := Option.map_eq_some_iff.mp h
      obtain ⟨taken, inv', built', hheap⟩ := inv.empty built hphase hstep
      refine ⟨_, inv', built', fun hstock => ?_, id⟩
      show q'.heap.fresh + g.first = _
      rw [hheap]
      exact hstock

/-- A node of the constructor keeps the invariant. -/
theorem Inv.construct_step (inv : Inv g s.shared s.producer s.consumer)
    (built : Built preAlloc g tr s) (h : construct preAlloc dummy s = some s') :
    ∃ g', Inv g' s'.shared s'.producer s'.consumer ∧ Built preAlloc g' tr s' := by
  obtain ⟨g', inv', built', -⟩ := inv.construct_moves built h
  exact ⟨g', inv', built'⟩

/-! ### Along every run -/

/-- An access after construction: what it shows is what it adds to the values. -/
theorem Built.follows (built : Built preAlloc g tr s) (inv : Inv g q l m)
    (hphase : s.phase = .ready) (hphase' : s'.phase = .ready) (hfollows : Follows g g' es)
    (inv' : Inv g' q' l' m') : Built preAlloc g' (tr ++ es) s' := by
  unfold Built at built ⊢
  rw [hphase] at built
  rw [hphase']
  obtain ⟨htaken, henq, hdeq⟩ := built
  obtain ⟨hacc, hdel⟩ := hfollows
  have hlen : g.taken ≤ g'.taken := by
    rw [← inv.delivered_length, ← inv'.delivered_length, hdel, List.length_append]
    exact Nat.le_add_right _ _
  refine ⟨htaken.trans hlen, ?_, ?_⟩
  · have hle : preAlloc ≤ g.accepted.length := htaken.trans inv.taken_le
    rw [enqueued, List.filterMap_append, hacc, List.drop_append_of_le_length hle]
    exact congrArg (· ++ _) henq
  · have hle : preAlloc ≤ g.delivered.length := htaken.trans inv.delivered_length.ge
    rw [dequeued, List.filterMap_append, hdel, List.drop_append_of_le_length hle]
    exact congrArg (· ++ _) hdeq

/-- The empty chain of the constructor's first node. -/
theorem Inv.init (dummy : α) :
    Inv ⟨[0], [], 0, 0, 0⟩ (Shared.init dummy) .idle .idle where
  chain :=
    { distinct := fun i j p _ _ hi hj => by
        have h1 := (List.getElem?_eq_some_iff.mp hi).1
        have h2 := (List.getElem?_eq_some_iff.mp hj).1
        simp only [List.length_singleton] at h1 h2
        omega
      linked := fun i a b _ _ hb => by
        have h1 := (List.getElem?_eq_some_iff.mp hb).1
        simp only [List.length_singleton] at h1
        omega
      last := fun i a _ ha hlen => by
        obtain rfl : i = 0 := by simpa using hlen
        cases ha
        simp [Shared.init, Heap.nextOf, Heap.empty] }
  length := rfl
  first_le := le_rfl
  copy_le := le_rfl
  taken_le := le_rfl
  first := rfl
  copy := rfl
  tail := rfl
  last := rfl
  head := trivial
  values := fun i p _ hp => by simp at hp
  producer := trivial
  consumer := trivial

/-- **Run lemma.** -/
theorem Inv.of_run (run : (machine preAlloc dummy).Run tr s) :
    ∃ g, Inv g s.shared s.producer s.consumer ∧ Built preAlloc g tr s := by
  induction run with
  | start => exact ⟨_, Inv.init dummy, rfl, rfl, rfl, Nat.zero_add _⟩
  | @snoc tr es s s' a run _ step ih =>
    obtain ⟨g, inv, built⟩ := ih
    simp only [machine, next] at step
    split at step
    · -- a call of `enqueue`
      rename_i v hphase
      split at step <;> cases step
      rename_i hidle
      have inv' : Inv g s.shared (.compareCopy v) s.consumer :=
        inv.producer_quiet (by rw [hidle]; rfl) trivial trivial
      exact ⟨g, inv', built.follows inv hphase hphase (Follows.refl g) inv'⟩
    · -- an access of the producer
      rename_i hphase
      obtain ⟨⟨q', l', es'⟩, hstep, heq⟩ := Option.map_eq_some_iff.mp step
      cases heq
      obtain ⟨g', inv', hfollows⟩ := inv.enqueue_step hstep
      exact ⟨g', inv', built.follows inv hphase hphase hfollows inv'⟩
    · -- a call of `try_dequeue`
      rename_i hphase
      split at step <;> cases step
      exact ⟨g, { inv with consumer := trivial },
        built.follows inv hphase hphase (Follows.refl g) inv⟩
    · -- an access of the consumer
      rename_i hphase
      obtain ⟨⟨q', m', es'⟩, hstep, heq⟩ := Option.map_eq_some_iff.mp step
      cases heq
      obtain ⟨g', inv', hfollows⟩ := inv.tryDequeue_step hstep
      exact ⟨g', inv', built.follows inv hphase hphase hfollows inv'⟩
    · -- an access of the constructor
      obtain ⟨s'', hstep, heq⟩ := Option.map_eq_some_iff.mp step
      cases heq
      rw [List.append_nil]
      exact inv.construct_step built hstep
    · exact absurd step (by simp)

/-! ### The property -/

/-- The node the consumer is holding. -/
def reading : Consumer α → Option Nat
  | .readValue p => p
  | .storeTail _ p => p
  | _ => none

/-- The node the producer's next access writes, other than the store of the link. -/
def writing (q : Shared α) : Producer α → Option Nat
  | .writeValue _ n => some n
  | .newNode _ => some q.heap.fresh
  | .clearNext _ n => some n
  | _ => none

/-- A node the consumer may read: it is holding it, or can reach it from `m_tail`. -/
def MayRead (s : State α) (p : Nat) : Prop :=
  (∃ a, s.shared.tail = some a ∧ Chain.Reaches s.shared.heap a p) ∨ reading s.consumer = some p

/-- The four pointers along the `next` pointers: each reaches the one after it, and nothing is
    behind the last node linked. -/
def InOrder (s : State α) : Prop :=
  ∃ first copy tail, s.shared.first = some first ∧ s.shared.tailCopy = some copy ∧
    s.shared.tail = some tail ∧ Chain.Reaches s.shared.heap first copy ∧
    Chain.Reaches s.shared.heap copy tail ∧
    Chain.Reaches s.shared.heap tail (lastLinked s.shared s.producer) ∧
    s.shared.heap.nextOf (lastLinked s.shared s.producer) = some none

/-- What the queue promises after `tr`. -/
structure ExactlyOnce (tr : List (Event α)) (s : State α) : Prop where
  /-- Nobody dereferenced a null or deleted pointer. -/
  running : s.producer ≠ .faulted ∧ s.consumer ≠ .faulted
  /-- A node about to be taken from the cache lies before `m_tail`. -/
  cache : ∀ v, s.producer = .takeFirst v →
    ∃ n, s.shared.first = some n ∧ ¬ MayRead s n
  /-- Apart from the link behind `m_head`, the producer writes nodes of its own. -/
  writes : ∀ n, writing s.shared s.producer = some n → ¬ MayRead s n
  ordered : InOrder s
  fifo : dequeued tr <+: enqueued tr

/-- What the consumer may read is in the chain from `m_tail` on. -/
theorem Inv.position_of_mayRead (inv : Inv g s.shared s.producer s.consumer) {p : Nat}
    (hp : MayRead s p) : ∃ i, g.taken ≤ i ∧ g.order[i]? = some p := by
  have hfirst := inv.first_le.trans inv.copy_le
  rcases hp with ⟨a, ha, hreach⟩ | hreading
  · exact inv.chain.of_reaches hfirst (inv.tail.symm.trans ha) hreach
  · -- it has read the node from the link of `m_tail`
    have hcons := inv.consumer
    refine ⟨g.taken + 1, Nat.le_succ _, ?_⟩
    cases hm : s.consumer with
    | readValue r =>
      rw [hm] at hcons hreading
      exact hcons.2.symm.trans hreading
    | storeTail v r =>
      rw [hm] at hcons hreading
      exact hcons.2.symm.trans hreading
    | _ =>
      rw [hm] at hreading
      exact absurd hreading (by simp [reading])

/-- A node before `m_tail` is not read any more. -/
theorem Inv.cache_free (inv : Inv g s.shared s.producer s.consumer) {v : α}
    (hl : s.producer = .takeFirst v) : ∃ n, s.shared.first = some n ∧ ¬ MayRead s n := by
  obtain ⟨n, -, hn, -, -⟩ := inv.takeFirst hl
  have hlt := inv.producer
  rw [hl] at hlt
  have hlt' : g.first < g.copy := hlt
  have hcopy := inv.copy_le
  refine ⟨n, hn, fun hread => ?_⟩
  obtain ⟨i, hi, hpos⟩ := inv.position_of_mayRead hread
  have heq := inv.chain.distinct i g.first n (by omega) le_rfl hpos (inv.first.symm.trans hn)
  omega

/-- A node the producer writes is outside of the chain. -/
theorem Inv.writing_free (inv : Inv g s.shared s.producer s.consumer) {n : Nat}
    (hn : writing s.shared s.producer = some n) : ¬ MayRead s n := by
  have hfree : ∀ i, g.first ≤ i → g.order[i]? ≠ some n := by
    have hheld := inv.producer
    cases hl : s.producer with
    | writeValue v r =>
      rw [hl] at hheld hn
      cases hn
      exact hheld.2
    | newNode v =>
      rw [hl] at hn
      cases hn
      exact inv.fresh_free
    | clearNext v r =>
      rw [hl] at hheld hn
      cases hn
      exact hheld.1.2
    | _ =>
      rw [hl] at hn
      exact absurd hn (by simp [writing])
  intro hread
  obtain ⟨i, hi, hpos⟩ := inv.position_of_mayRead hread
  exact hfree i ((inv.first_le.trans inv.copy_le).trans hi) hpos

/-- The positions of the four pointers, along the links. -/
theorem Inv.inOrder (inv : Inv g s.shared s.producer s.consumer) : InOrder s := by
  have hlen := inv.length
  have hfirst := inv.first_le
  have hcopy := inv.copy_le
  have htaken := inv.taken_le
  have hget : ∀ i, i ≤ g.accepted.length → ∃ p, g.order[i]? = some p := fun i hi =>
    ⟨_, List.getElem?_eq_getElem (by omega)⟩
  obtain ⟨first, h1⟩ := hget g.first (by omega)
  obtain ⟨copy, h2⟩ := hget g.copy (by omega)
  obtain ⟨tail, h3⟩ := hget g.taken htaken
  have h4 := inv.last
  exact ⟨first, copy, tail, inv.first.trans h1, inv.copy.trans h2, inv.tail.trans h3,
    inv.chain.reaches le_rfl hfirst h1 h2, inv.chain.reaches hfirst hcopy h2 h3,
    inv.chain.reaches (hfirst.trans hcopy) htaken h3 h4,
    inv.chain.last _ _ (by omega) h4 (by omega)⟩

/-- What was taken out after construction is a prefix of what was put in. -/
theorem Built.fifo (built : Built preAlloc g tr s) : dequeued tr <+: enqueued tr := by
  unfold Built at built
  cases hphase : s.phase with
  | filling left =>
    rw [hphase] at built
    rw [built.1]
    exact List.prefix_rfl
  | emptying left =>
    rw [hphase] at built
    rw [built.1]
    exact List.prefix_rfl
  | ready =>
    rw [hphase] at built
    obtain ⟨-, henq, hdeq⟩ := built
    rw [henq, hdeq]
    exact (List.take_prefix g.taken g.accepted).drop preAlloc

end

/-- **Safety.** For every `pre_alloc`, along every run. -/
theorem exactlyOnce_of_run (preAlloc : Nat) (dummy : α) {tr : List (Event α)} {s : State α}
    (run : (machine preAlloc dummy).Run tr s) : ExactlyOnce tr s := by
  obtain ⟨g, inv, built⟩ := Inv.of_run run
  exact
    { running := inv.not_faulted
      cache := fun v hl => inv.cache_free hl
      writes := fun n hn => inv.writing_free hn
      ordered := inv.inOrder
      fifo := built.fifo }

/-- Constructs the queue with one value, which leaves one node in the cache. -/
def constructOne : List (Action α) := List.replicate 16 .construct

/-- One node is recycled, the next one is new, and the first value is taken out. -/
theorem exactlyOnce_of_run_one : ∃ tr s, (machine (α := Nat) 1 0).Run tr s ∧
    enqueued tr = [7, 8] ∧ dequeued tr = [7] ∧ s.shared.heap.fresh = 3 ∧ ExactlyOnce tr s := by
  obtain ⟨tr, s, run, henq, hdeq, hfresh⟩ := Machine.exists_run
    (M := machine (α := Nat) 1 0)
    (P := fun tr s => enqueued tr = [7, 8] ∧ dequeued tr = [7] ∧ s.shared.heap.fresh = 3)
    (constructOne ++ Action.enqueue 7 :: List.replicate 8 Action.produce ++ Action.enqueue 8 ::
      List.replicate 7 Action.produce ++ Action.tryDequeue :: List.replicate 5 Action.consume)
    (by decide +kernel)
  exact ⟨tr, s, run, henq, hdeq, hfresh, exactlyOnce_of_run 1 0 run⟩

end HopeThreading.SpscQueue
