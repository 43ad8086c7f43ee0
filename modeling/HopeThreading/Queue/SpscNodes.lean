import HopeThreading.Memory.Release
import HopeThreading.Queue.SpscSafety
import HopeThreading.Transition.History
import HopeThreading.Transition.Peak

namespace HopeThreading.SpscQueue

open Transition Memory

/-!
# `spsc_queue` — the node cache

The producer allocates only after `m_first` has met a copy of `m_tail` that it has made in the
same call.  At the moment of that copy all nodes, but for the dummy, carry values nobody has taken,
and there is one value more, the one of the call (`Looked`).  So there are never more nodes than
one and the largest number of values that were outstanding at one moment, or `pre_alloc`
(`cached_of_run`), however old the copy may be that is compared first.

A value is outstanding from the call of `enqueue` to its delivery.  The calls have no event, so
they are recorded beside the events (`called`).
-/

variable {α : Type*}

/-- A call of `enqueue` is recorded with its value. -/
def called (_ : State α) : Action α → List α
  | .enqueue v => [v]
  | _ => []

/-- The number of values not delivered, with the one being enqueued. -/
def outstanding (tr : List (Event α ⊕ α)) : Nat :=
  (Machine.records tr).length - (dequeued (Machine.events tr)).length

/-- `~spsc_queue()`: the nodes it deletes. -/
def destroy (fuel : Nat) (q : Shared α) : Option (List Nat) :=
  (Heap.freeFrom fuel q.heap q.first).map Prod.snd

/-- The nodes ever allocated are `nodes`, and lie on the chain from `m_first` to `m_head`, each
    once. -/
structure OnChain (q : Shared α) (nodes : List Nat) : Prop where
  first : nodes.head? = q.first
  head : nodes.getLast? = some q.head
  linked : nodes.IsChain fun a b => q.heap.nextOf a = some (some b)
  all : nodes.Perm (List.range q.heap.fresh)

/-- What the node cache promises after `tr`. -/
structure Cached (preAlloc : Nat) (tr : List (Event α ⊕ α)) (s : State α) : Prop where
  atPeak : s.shared.heap.fresh ≤ 1 + max preAlloc (peak outstanding tr)
  /-- When `enqueue` is about to call `new`, more than `pre_alloc` values have been outstanding
      at a moment since it was called. -/
  needed : s.phase = .ready → ∀ v, s.producer = .newNode v → ∃ before w during after,
    tr = before ++ .inr w :: during ++ after ∧ Machine.records (during ++ after) = [] ∧
      preAlloc < outstanding (before ++ .inr w :: during)
  /-- When no `enqueue` is in progress every node is on the chain once, and the destructor deletes
      each of them once. -/
  complete : s.producer = .idle → ∃ nodes, OnChain s.shared nodes ∧
    ∀ fuel, s.shared.heap.fresh ≤ fuel → destroy fuel s.shared = some nodes

/-! ### The nodes -/

section

variable {g g' : Ghost α} {q : Shared α} {l : Producer α} {m : Consumer α} {preAlloc : Nat}
  {dummy : α} {s s' : State α} {tr : List (Event α ⊕ α)}

/-- With nothing in the producer's hands the chain has all nodes. -/
theorem Inv.onChain (inv : Inv g q .idle m) (hstock : Stocked g q .idle) :
    OnChain q (g.order.drop g.first) ∧
      ∀ fuel, q.heap.fresh ≤ fuel → destroy fuel q = some (g.order.drop g.first) := by
  have hlen := inv.length
  have hfirst := inv.first_le.trans (inv.copy_le.trans inv.taken_le)
  have hstock' : q.heap.fresh + g.first = g.order.length := hstock
  refine ⟨⟨?_, ?_, inv.chain.isChain_drop le_rfl, inv.chain.perm_range hstock'⟩,
    fun fuel hfuel => ?_⟩
  · rw [List.head?_drop, inv.first]
  · rw [List.getLast?_drop, if_neg (by omega), List.getLast?_eq_getElem?,
      show g.order.length - 1 = g.accepted.length by omega]
    exact inv.last
  · rw [destroy, inv.first, inv.chain.freeFrom fuel, if_pos (by omega)]

/-- An access of `enqueue` allocates in one place only. -/
theorem enqueue_fresh {q' : Shared α} {l' : Producer α} {es : List (Event α)}
    (h : enqueue q l = some (q', l', es)) :
    q'.heap.fresh = q.heap.fresh ∨ ∃ v, l = .newNode v ∧ q'.heap.fresh = q.heap.fresh + 1 := by
  cases l with
  | newNode v => cases h; exact .inr ⟨v, rfl, rfl⟩
  | idle => exact absurd h (by simp [enqueue])
  | faulted => exact absurd h (by simp [enqueue])
  | takeFirst v =>
    simp only [enqueue] at h
    split at h
    · cases h; exact .inl rfl
    · split at h <;> cases h <;> exact .inl rfl
  | loadTail v => cases h; exact .inl rfl
  | storeHead n => cases h; exact .inl rfl
  | _ =>
    simp only [enqueue] at h
    split at h <;> cases h <;> exact .inl rfl

/-! ### What was outstanding at the copy of `m_tail` -/

/-- Since the last call of `enqueue` there was a moment with as many values outstanding as there
    are nodes behind the copy, the one to come included. -/
def Looked (g : Ghost α) (tr : List (Event α ⊕ α)) : Prop :=
  ∃ before w during after, tr = before ++ .inr w :: during ++ after ∧
    Machine.records (during ++ after) = [] ∧
    outstanding (before ++ .inr w :: during) + g.copy = g.accepted.length + 1

/-- What was looked at stays right when the history goes on without a new record. -/
theorem Looked.mono {es : List (Event α ⊕ α)} (looked : Looked g tr)
    (hrec : Machine.records es = []) (hcopy : g'.copy = g.copy)
    (hacc : g'.accepted = g.accepted) : Looked g' (tr ++ es) := by
  obtain ⟨before, w, during, after, rfl, hnone, hout⟩ := looked
  refine ⟨before, w, during, after ++ es, by simp, ?_, ?_⟩
  · rw [← List.append_assoc, Machine.records_append, hnone, hrec]
    rfl
  · rw [hcopy, hacc]
    exact hout

/-- What holds after the construction. -/
structure Used (preAlloc : Nat) (g : Ghost α) (tr : List (Event α ⊕ α)) (s : State α) :
    Prop where
  enough : 1 + preAlloc ≤ s.shared.heap.fresh
  atPeak : s.shared.heap.fresh ≤ 1 + max preAlloc (peak outstanding tr)
  calls : (Machine.records tr).length + preAlloc = g.accepted.length + toLink s.producer
  looked : ∀ v, s.producer = .compareAgain v ∨ s.producer = .newNode v → Looked g tr
  met : ∀ v, s.producer = .newNode v → g.first = g.copy

/-- The invariant, and the count of the nodes. -/
structure Books (preAlloc : Nat) (g : Ghost α) (tr : List (Event α ⊕ α)) (s : State α) :
    Prop where
  inv : Inv g s.shared s.producer s.consumer
  built : Built preAlloc g (Machine.events tr) s
  stocked : Stocked g s.shared s.producer
  unused : s.phase ≠ .ready → tr = [] ∧ g.first = 0
  used : s.phase = .ready → Used preAlloc g tr s

/-- The values outstanding, by the positions. -/
theorem Books.outstanding_eq (books : Books preAlloc g tr s) (hphase : s.phase = .ready) :
    outstanding tr + g.taken = g.accepted.length + toLink s.producer := by
  have hbuilt := books.built
  unfold Built at hbuilt
  rw [hphase] at hbuilt
  obtain ⟨htaken, -, hdeq⟩ := hbuilt
  have hcalls := (books.used hphase).calls
  have hle := books.inv.taken_le
  have hlen : (dequeued (Machine.events tr)).length = g.taken - preAlloc := by
    rw [hdeq, List.length_drop, books.inv.delivered_length]
  rw [outstanding, hlen]
  omega

/-- When `enqueue` is about to call `new`, there are as many nodes as values were outstanding at
    a moment since it was called. -/
theorem Books.outstanding_newNode (books : Books preAlloc g tr s) (hphase : s.phase = .ready)
    {v : α} (hl : s.producer = .newNode v) : ∃ before w during after,
    tr = before ++ .inr w :: during ++ after ∧ Machine.records (during ++ after) = [] ∧
      outstanding (before ++ .inr w :: during) = s.shared.heap.fresh := by
  have hused := books.used hphase
  obtain ⟨before, w, during, after, htr, hnone, hout⟩ := hused.looked v (.inr hl)
  refine ⟨before, w, during, after, htr, hnone, ?_⟩
  -- the nodes are those of the chain, which begins at the copy
  have hstock := books.stocked
  rw [hl] at hstock
  have hstock' : s.shared.heap.fresh + g.first = g.order.length := hstock
  have hmet := hused.met v hl
  have hlen := books.inv.length
  omega

/-- The moment at which a call makes its copy of `m_tail`. -/
theorem Books.looked_of_copy (books : Books preAlloc g tr s) (hphase : s.phase = .ready)
    (hbusy : toLink s.producer = 1) : Looked { g with copy := g.taken } tr := by
  have hcalls := (books.used hphase).calls
  have hout := books.outstanding_eq hphase
  have hbuilt := books.built
  unfold Built at hbuilt
  rw [hphase] at hbuilt
  have htaken := hbuilt.1
  have hle := books.inv.taken_le
  have hne : Machine.records tr ≠ [] := by
    intro hnil
    rw [hnil] at hcalls
    have hcalls' : 0 + preAlloc = g.accepted.length + toLink s.producer := hcalls
    omega
  obtain ⟨before, w, during, rfl, hnone⟩ := Machine.exists_last_record hne
  refine ⟨before, w, during, [], (List.append_nil _).symm, ?_, ?_⟩
  · rw [List.append_nil]
    exact hnone
  · show _ + g.taken = g.accepted.length + 1
    omega

/-! ### Along every run -/

/-- The constructor is done in one place only. -/
theorem construct_ready (h : construct preAlloc dummy s = some s') (hready : s'.phase = .ready) :
    s.phase = .emptying 0 ∧ s'.producer = s.producer := by
  unfold construct at h
  cases hphase : s.phase with
  | ready =>
    rw [hphase] at h
    exact absurd h (by simp)
  | filling left =>
    rw [hphase] at h
    simp only at h
    split at h
    · cases h; cases hready
    · cases h; cases hready
    · obtain ⟨r, -, rfl⟩ := Option.map_eq_some_iff.mp h
      exact absurd (hphase.symm.trans hready) (by simp)
  | emptying left =>
    rw [hphase] at h
    simp only at h
    split at h
    · cases h; cases hready
    · cases h; exact ⟨rfl, rfl⟩
    · obtain ⟨r, -, rfl⟩ := Option.map_eq_some_iff.mp h
      exact absurd (hphase.symm.trans hready) (by simp)

/-- **The constructor.** -/
theorem Books.construct (books : Books preAlloc g tr s)
    (h : construct preAlloc dummy s = some s') : ∃ g', Books preAlloc g' tr s' := by
  have hbusy : s.phase ≠ .ready := by
    intro hphase
    rw [SpscQueue.construct, hphase] at h
    cases h
  obtain ⟨rfl, hfirst⟩ := books.unused hbusy
  obtain ⟨g', inv', built', hstock, hfirst'⟩ := books.inv.construct_moves books.built h
  refine ⟨g', inv', built', hstock books.stocked, fun _ => ⟨rfl, hfirst' hfirst⟩,
    fun hready => ?_⟩
  -- `pre_alloc` values have gone through, and the nodes have come from `new`
  obtain ⟨hphase, hproducer⟩ := construct_ready h hready
  have hidle := books.built
  unfold Built at hidle built'
  rw [hphase] at hidle
  rw [hready] at built'
  rw [hidle.2.1] at hproducer
  have hstocked : Stocked g' s'.shared s'.producer := hstock books.stocked
  rw [hproducer] at hstocked
  have hfresh : s'.shared.heap.fresh + g'.first = g'.order.length := hstocked
  have hnone : (g'.accepted.drop preAlloc).length = 0 := by
    rw [← built'.2.1]
    rfl
  rw [List.length_drop] at hnone
  have hlen := inv'.length
  have htaken := built'.1
  have hle := inv'.taken_le
  have hzero := hfirst' hfirst
  exact
    { enough := by omega
      atPeak := by
        have := Nat.le_max_left preAlloc (peak outstanding ([] : List (Event α ⊕ α)))
        omega
      calls := by
        rw [hproducer]
        show 0 + preAlloc = g'.accepted.length + 0
        omega
      looked := fun v hl => by rw [hproducer] at hl; simp at hl
      met := fun v hl => by rw [hproducer] at hl; cases hl }

/-- **An access of the producer.** -/
theorem Books.produce (books : Books preAlloc g tr s) (hphase : s.phase = .ready)
    {es : List (Event α ⊕ α)}
    (h : enqueue s.shared s.producer = some (q, l, Machine.events es))
    (hrec : Machine.records es = []) :
    ∃ g', Books preAlloc g' (tr ++ es) { s with shared := q, producer := l } := by
  have hused := books.used hphase
  obtain ⟨g', inv', hfollows, hmoves⟩ := books.inv.enqueue_moves h
  have hevents := (enqueue_events h).2 inv'.not_faulted.1
  have hacc := congrArg List.length hfollows.1
  rw [List.length_append] at hacc
  have hcalls := hused.calls
  have hfresh := enqueue_fresh h
  have henough := hused.enough
  refine ⟨g', inv', ?_, hmoves.stocked books.stocked, fun hbusy => absurd hphase hbusy,
    fun _ => ⟨?_, ?_, ?_, ?_, ?_⟩⟩
  · rw [Machine.events_append]
    exact books.built.follows books.inv hphase hphase hfollows inv'
  · show 1 + preAlloc ≤ q.heap.fresh
    rcases hfresh with heq | ⟨v, -, heq⟩ <;> omega
  · show q.heap.fresh ≤ _
    have hpeak : peak outstanding tr ≤ peak outstanding (tr ++ es) :=
      peak_mono (List.prefix_append _ _)
    rcases hfresh with heq | ⟨v, hl, heq⟩
    · have hold := hused.atPeak
      omega
    · obtain ⟨before, w, during, after, rfl, -, hout⟩ := books.outstanding_newNode hphase hl
      have hle : outstanding (before ++ .inr w :: during) ≤
          peak outstanding (before ++ .inr w :: during ++ after ++ es) :=
        le_peak (by rw [List.append_assoc _ after]; exact List.prefix_append _ _)
      omega
  · rw [Machine.records_append, hrec, List.append_nil]
    show _ = g'.accepted.length + toLink l
    omega
  · rintro v (hl | hl)
    · -- the copy of `m_tail` has been made
      have hl' : l = .compareAgain v := hl
      rw [hl'] at hevents
      have hbusy : (enqueued (Machine.events es)).length + 1 = toLink s.producer := hevents
      have hone : toLink s.producer ≤ 1 := by cases s.producer <;> simp [toLink]
      rw [hmoves.looked v hl']
      exact (books.looked_of_copy hphase (by omega)).mono hrec rfl rfl
    · obtain ⟨hfrom, rfl, -⟩ := hmoves.allocates v hl
      exact (hused.looked v (.inl hfrom)).mono hrec rfl rfl
  · intro v hl
    obtain ⟨-, rfl, hmet⟩ := hmoves.allocates v hl
    exact hmet

/-- **An access of the consumer.** -/
theorem Books.consume (books : Books preAlloc g tr s) (hphase : s.phase = .ready)
    {es : List (Event α ⊕ α)}
    (h : tryDequeue s.shared s.consumer = some (q, m, Machine.events es))
    (hrec : Machine.records es = []) :
    ∃ g', Books preAlloc g' (tr ++ es) { s with shared := q, consumer := m } := by
  have hused := books.used hphase
  obtain ⟨taken, inv', hfollows, hheap⟩ := books.inv.tryDequeue_moves h
  have hfresh : q.heap.fresh = s.shared.heap.fresh := by rw [hheap]
  refine ⟨_, inv', ?_, ?_, fun hbusy => absurd hphase hbusy, fun _ => ⟨?_, ?_, ?_, ?_, ?_⟩⟩
  · rw [Machine.events_append]
    exact books.built.follows books.inv hphase hphase hfollows inv'
  · show q.heap.fresh + g.first = _
    rw [hfresh]
    exact books.stocked
  · show 1 + preAlloc ≤ q.heap.fresh
    rw [hfresh]
    exact hused.enough
  · show q.heap.fresh ≤ _
    have hpeak : peak outstanding tr ≤ peak outstanding (tr ++ es) :=
      peak_mono (List.prefix_append _ _)
    have hold := hused.atPeak
    omega
  · rw [Machine.records_append, hrec, List.append_nil]
    exact hused.calls
  · exact fun v hl => (hused.looked v hl).mono hrec rfl rfl
  · exact hused.met

/-- The producer enters `enqueue`. -/
theorem Books.enter (books : Books preAlloc g tr s) (hphase : s.phase = .ready)
    (hidle : s.producer = .idle) {v : α} {es : List (Event α ⊕ α)}
    (hevents : Machine.events es = []) (hrec : Machine.records es = [v]) :
    Books preAlloc g (tr ++ es) { s with producer := .compareCopy v } := by
  have hused := books.used hphase
  have inv' : Inv g s.shared (.compareCopy v) s.consumer :=
    books.inv.producer_quiet (by rw [hidle]; rfl) trivial trivial
  have hstock := books.stocked
  have hcalls := hused.calls
  rw [hidle] at hstock hcalls
  refine ⟨inv', ?_, hstock, fun hbusy => absurd hphase hbusy,
    fun _ => ⟨hused.enough, ?_, ?_, fun w hl => by simp at hl, fun w hl => by cases hl⟩⟩
  · rw [Machine.events_append, hevents]
    exact books.built.follows books.inv hphase hphase (Follows.refl g) inv'
  · have hpeak : peak outstanding tr ≤ peak outstanding (tr ++ es) :=
      peak_mono (List.prefix_append _ _)
    have hold := hused.atPeak
    show s.shared.heap.fresh ≤ _
    omega
  · rw [Machine.records_append, hrec, List.length_append]
    have hcalls' : (Machine.records tr).length + preAlloc = g.accepted.length + 0 := hcalls
    show _ + 1 + preAlloc = g.accepted.length + 1
    omega

/-- **Run lemma.** -/
theorem Books.of_run (run : ((machine preAlloc dummy).recording called).Run tr s) :
    ∃ g, Books preAlloc g tr s := by
  induction run with
  | start =>
    exact ⟨_, Inv.init dummy, ⟨rfl, rfl, rfl, Nat.zero_add _⟩, rfl, fun _ => ⟨rfl, rfl⟩,
      fun hready => by cases hready⟩
  | @snoc tr es s s' a run _ step ih =>
    obtain ⟨g, books⟩ := ih
    obtain ⟨hnext, hrec⟩ := Machine.next_recording step
    clear step
    simp only [machine, next] at hnext
    split at hnext
    · -- a call of `enqueue`
      rename_i v hphase
      split at hnext
      · rename_i hidle
        obtain ⟨rfl, hevents⟩ := Prod.mk.inj (Option.some.inj hnext)
        exact ⟨g, books.enter hphase hidle hevents.symm hrec⟩
      · exact absurd hnext (by simp)
    · -- an access of the producer
      rename_i hphase
      obtain ⟨⟨q, l, es'⟩, hstep, heq⟩ := Option.map_eq_some_iff.mp hnext
      obtain ⟨rfl, rfl⟩ := Prod.mk.inj heq
      exact books.produce hphase hstep hrec
    · -- a call of `try_dequeue`
      rename_i hphase
      split at hnext
      · obtain ⟨rfl, hevents⟩ := Prod.mk.inj (Option.some.inj hnext)
        obtain rfl := Machine.eq_nil_of_events_records hevents.symm hrec
        rw [List.append_nil]
        have hinv : Inv g s.shared s.producer .testNext := { books.inv with consumer := trivial }
        have hbuilt : Built preAlloc g (Machine.events tr ++ []) { s with consumer := .testNext } :=
          books.built.follows books.inv hphase hphase (Follows.refl g) hinv
        rw [List.append_nil] at hbuilt
        exact ⟨g, hinv, hbuilt, books.stocked, books.unused,
          fun hready => { books.used hready with }⟩
      · exact absurd hnext (by simp)
    · -- an access of the consumer
      rename_i hphase
      obtain ⟨⟨q, m, es'⟩, hstep, heq⟩ := Option.map_eq_some_iff.mp hnext
      obtain ⟨rfl, rfl⟩ := Prod.mk.inj heq
      exact books.consume hphase hstep hrec
    · -- an access of the constructor
      obtain ⟨s'', hstep, heq⟩ := Option.map_eq_some_iff.mp hnext
      obtain ⟨rfl, hevents⟩ := Prod.mk.inj heq
      obtain rfl := Machine.eq_nil_of_events_records hevents.symm hrec
      rw [List.append_nil]
      exact books.construct hstep
    · exact absurd hnext (by simp)

/-! ### The property -/

/-- What the producer holds it has not linked. -/
theorem kept_le_toLink (l : Producer α) : kept l ≤ toLink l := by
  cases l <;> simp [kept, toLink]

/-- While the constructor runs nothing is taken from the cache. -/
theorem Books.unused_fresh (books : Books preAlloc g tr s) (hbusy : s.phase ≠ .ready) :
    s.shared.heap.fresh ≤ 1 + preAlloc := by
  have hzero := (books.unused hbusy).2
  have hlen := books.inv.length
  have hstock := books.stocked
  unfold Stocked at hstock
  have hbuilt := books.built
  unfold Built at hbuilt
  cases hphase : s.phase with
  | filling left =>
    rw [hphase] at hbuilt
    have hsum := hbuilt.2.2.2
    have hkept := kept_le_toLink s.producer
    omega
  | emptying left =>
    rw [hphase] at hbuilt
    rw [hbuilt.2.1] at hstock
    have hacc := hbuilt.2.2.1
    have hkept : kept (.idle : Producer α) = 0 := rfl
    omega
  | ready => exact absurd hphase hbusy

end

/-- **The node cache.** For every `pre_alloc`, along every run. -/
theorem cached_of_run (preAlloc : Nat) (dummy : α) {tr : List (Event α ⊕ α)} {s : State α}
    (run : ((machine preAlloc dummy).recording called).Run tr s) : Cached preAlloc tr s := by
  obtain ⟨g, books⟩ := Books.of_run run
  refine ⟨?_, fun hphase v hl => ?_, fun hidle => ?_⟩
  · cases hphase : s.phase with
    | ready => exact (books.used hphase).atPeak
    | _ =>
      have hfresh := books.unused_fresh (by rw [hphase]; simp)
      have := Nat.le_max_left preAlloc (peak outstanding tr)
      omega
  · obtain ⟨before, w, during, after, htr, hnone, hout⟩ := books.outstanding_newNode hphase hl
    have henough := (books.used hphase).enough
    exact ⟨before, w, during, after, htr, hnone, by omega⟩
  · have inv := books.inv
    have hstock := books.stocked
    rw [hidle] at inv hstock
    exact ⟨_, inv.onChain hstock⟩

/-- Two values wait at a time, one more than `pre_alloc`, so one node is new; the third value
    takes a node that the consumer has left. -/
theorem cached_of_run_two : ∃ tr s, ((machine (α := Nat) 1 0).recording called).Run tr s ∧
    Machine.records tr = [7, 8, 9] ∧ peak outstanding tr = 2 ∧ s.shared.heap.fresh = 3 ∧
      destroy 3 s.shared = some [0, 2, 1] ∧ Cached 1 tr s := by
  obtain ⟨tr, s, run, hcalls, hpeak, hfresh, hdestroy⟩ := Machine.exists_run
    (M := (machine (α := Nat) 1 0).recording called)
    (P := fun tr s => Machine.records tr = [7, 8, 9] ∧ peak outstanding tr = 2 ∧
      s.shared.heap.fresh = 3 ∧ destroy 3 s.shared = some [0, 2, 1])
    (constructOne ++ Action.enqueue 7 :: List.replicate 8 Action.produce ++ Action.enqueue 8 ::
      List.replicate 7 Action.produce ++ Action.tryDequeue :: List.replicate 5 Action.consume ++
      Action.enqueue 9 :: List.replicate 8 Action.produce)
    (by decide +kernel)
  exact ⟨tr, s, run, hcalls, hpeak, hfresh, hdestroy, cached_of_run 1 0 run⟩

end HopeThreading.SpscQueue
