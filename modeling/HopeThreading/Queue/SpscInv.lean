import HopeThreading.Memory.Chain
import HopeThreading.Queue.Spsc
import HopeThreading.Transition.Fifo

namespace HopeThreading.SpscQueue

open Transition Memory

/-!
# `spsc_queue` — the invariant

All nodes ever linked, in the order of the links, form one `Chain`.  `m_first`, `m_tail_copy`,
`m_tail` and the last node are at four positions of it, in this order; the chain starts at
`m_first`, and a node taken from there is in it a second time when it is linked again.  The
copy of `m_tail` may be old, but `m_tail` only moves on, so what lies before the copy lies
before `m_tail`.
-/

variable {α : Type*}

/-! ### The invariant -/

/-- The nodes linked so far (the first one is the constructor's), the values put into the
    queue, and the positions of the pointers. -/
structure Ghost (α : Type*) where
  order : List Nat
  accepted : List α
  first : Nat
  copy : Nat
  taken : Nat

/-- The values taken out of the queue. -/
def Ghost.delivered (g : Ghost α) : List α := g.accepted.take g.taken

/-- A node the producer holds is live and not in the chain. -/
def Held (g : Ghost α) (h : Heap α) (n : Nat) : Prop :=
  h.get n ≠ none ∧ ∀ i, g.first ≤ i → g.order[i]? ≠ some n

/-- What the producer relies on between two of its accesses. -/
def ProducerInv (g : Ghost α) (q : Shared α) : Producer α → Prop
  | .takeFirst _ => g.first < g.copy
  | .writeValue _ n => Held g q.heap n
  | .clearNext v n => Held g q.heap n ∧ q.heap.valueOf n = some v
  | .storeLink v n => Held g q.heap n ∧ q.heap.valueOf n = some v ∧ q.heap.nextOf n = some none
  | .faulted => False
  | _ => True

/-- The last node linked: `m_head`, or its successor before `m_head` follows. -/
def lastLinked (q : Shared α) : Producer α → Nat
  | .storeHead n => n
  | _ => q.head

/-- `m_head` is behind the last node linked while the producer is between its two stores. -/
def HeadInv (g : Ghost α) (q : Shared α) : Producer α → Prop
  | .storeHead _ => ∃ i, g.accepted.length = i + 1 ∧ g.order[i]? = some q.head
  | _ => True

/-- What the consumer relies on between two of its accesses. -/
def ConsumerInv (g : Ghost α) : Consumer α → Prop
  | .idle => True
  | .testNext => True
  | .readNext => g.taken < g.accepted.length
  | .readValue p => g.taken < g.accepted.length ∧ p = g.order[g.taken + 1]?
  | .readNextAgain v => g.accepted[g.taken]? = some v
  | .storeTail v p => g.accepted[g.taken]? = some v ∧ p = g.order[g.taken + 1]?
  | .faulted => False

/-- The invariant: one chain leads from `m_first` to the newest node, the cache in front of
    `m_tail` and behind it what was enqueued and not taken. -/
structure Inv (g : Ghost α) (q : Shared α) (producer : Producer α) (consumer : Consumer α) :
    Prop where
  chain : Chain q.heap g.order g.first fun _ _ => False
  length : g.order.length = g.accepted.length + 1
  first_le : g.first ≤ g.copy
  copy_le : g.copy ≤ g.taken
  taken_le : g.taken ≤ g.accepted.length
  first : q.first = g.order[g.first]?
  copy : q.tailCopy = g.order[g.copy]?
  tail : q.tail = g.order[g.taken]?
  last : g.order[g.accepted.length]? = some (lastLinked q producer)
  head : HeadInv g q producer
  values : ∀ i p, g.taken ≤ i → g.order[i + 1]? = some p → q.heap.valueOf p = g.accepted[i]?
  producer : ProducerInv g q producer
  consumer : ConsumerInv g consumer

/-- The events of a step are what it adds to the values put in and taken out. -/
def Follows (g g' : Ghost α) (es : List (Event α)) : Prop :=
  g'.accepted = g.accepted ++ enqueued es ∧ g'.delivered = g.delivered ++ dequeued es

/-- An access without events changes nothing in the history. -/
theorem Follows.refl (g : Ghost α) : Follows g g [] :=
  ⟨(List.append_nil _).symm, (List.append_nil _).symm⟩

/-! ### How many nodes there are -/

/-- One for a node that the producer has taken or allocated and not linked yet. -/
def kept : Producer α → Nat
  | .writeValue _ _ | .clearNext _ _ | .storeLink _ _ => 1
  | _ => 0

/-- All nodes ever allocated are in the chain or with the producer. -/
def Stocked (g : Ghost α) (q : Shared α) (l : Producer α) : Prop :=
  q.heap.fresh + g.first = g.order.length + kept l

/-- What an access of the producer does to the nodes: none gets lost, the copy of `m_tail` is
    taken in one place, and a node is only allocated when `m_first` has reached the copy. -/
structure Moves (g g' : Ghost α) (q q' : Shared α) (l l' : Producer α) : Prop where
  stocked : Stocked g q l → Stocked g' q' l'
  looked : ∀ v, l' = .compareAgain v → g' = { g with copy := g.taken }
  allocates : ∀ v, l' = .newNode v → l = .compareAgain v ∧ g' = g ∧ g.first = g.copy

/-- An access behind which the producer neither has just looked at `m_tail` nor allocates. -/
theorem Moves.of_stocked {g g' : Ghost α} {q q' : Shared α} {l l' : Producer α}
    (h : Stocked g q l → Stocked g' q' l') (hl : ∀ v, l' ≠ .compareAgain v ∧ l' ≠ .newNode v) :
    Moves g g' q q' l l' where
  stocked := h
  looked := fun v heq => absurd heq (hl v).1
  allocates := fun v heq => absurd heq (hl v).2

/-! ### Reading the invariant -/

section

variable {g : Ghost α} {q : Shared α} {l : Producer α} {m : Consumer α}

/-- `m_tail->next` is the node at the next position, or null behind the last one. -/
theorem Inv.tailNext (inv : Inv g q l m) : q.tailNext = some g.order[g.taken + 1]? := by
  have hfirst := inv.first_le.trans inv.copy_le
  have hlen := inv.length
  have hle := inv.taken_le
  have htail : g.order[g.taken]? = some g.order[g.taken] := List.getElem?_eq_getElem (by omega)
  unfold Shared.tailNext
  rw [inv.tail, htail, Option.bind_some]
  rcases Nat.lt_or_ge g.taken g.accepted.length with hlt | hge
  · have hnext := List.getElem?_eq_getElem (l := g.order) (i := g.taken + 1) (by omega)
    rcases inv.chain.linked _ _ _ hfirst htail hnext with h | ⟨-, h⟩
    · rw [h, hnext]
    · exact h.elim
  · rw [inv.chain.last _ _ hfirst htail (by omega), List.getElem?_eq_none (by omega)]

/-- The node at a position from `m_first` on is live. -/
theorem Inv.live (inv : Inv g q l m) {i p : Nat} (hi : g.first ≤ i) (hp : g.order[i]? = some p) :
    q.heap.get p ≠ none := by
  obtain ⟨n, hn⟩ := inv.chain.live hi hp
  exact Heap.get_ne_none_of_nextOf hn

/-- Different pointers are different positions. -/
theorem Inv.first_lt_copy (inv : Inv g q l m) (h : q.first ≠ q.tailCopy) : g.first < g.copy := by
  refine Nat.lt_of_le_of_ne inv.first_le fun heq => h ?_
  rw [inv.first, inv.copy, heq]

/-- Equal pointers are equal positions. -/
theorem Inv.first_eq_copy (inv : Inv g q l m) (h : q.first = q.tailCopy) : g.first = g.copy := by
  have hfirst := inv.first_le
  have hcopy := inv.copy_le
  have htaken := inv.taken_le
  have hlen := inv.length
  have hget := List.getElem?_eq_getElem (l := g.order) (i := g.first) (by omega)
  rw [inv.first, inv.copy, hget] at h
  exact inv.chain.distinct _ _ _ le_rfl hfirst hget h.symm

/-! ### The producer -/

/-- A move of the producer that changes only its program counter. -/
theorem Inv.producer_quiet (inv : Inv g q l m) {l' : Producer α}
    (hlast : lastLinked q l' = lastLinked q l) (hhead : HeadInv g q l')
    (hl : ProducerInv g q l') : Inv g q l' m :=
  { inv with
    last := hlast ▸ inv.last
    head := hhead
    producer := hl }

/-- The copy of `m_tail` is brought up to date. -/
theorem Inv.loadTail (inv : Inv g q l m) {v : α} (hl : l = .loadTail v) :
    Inv { g with copy := g.taken } { q with tailCopy := q.tail } (.compareAgain v) m :=
  { inv with
    first_le := inv.first_le.trans inv.copy_le
    copy_le := le_rfl
    copy := inv.tail
    last := by
      have hlast := inv.last
      rw [hl] at hlast
      exact hlast
    head := trivial
    producer := trivial }

/-- The first node before the copy leaves the chain. -/
theorem Inv.takeFirst (inv : Inv g q l m) {v : α} (hl : l = .takeFirst v) :
    ∃ n next, q.first = some n ∧ q.heap.nextOf n = some next ∧
      Inv { g with first := g.first + 1 } { q with first := next } (.writeValue v n) m := by
  have hlt : g.first < g.copy := by
    have := inv.producer
    rwa [hl] at this
  have hlen := inv.length
  have hcopy := inv.copy_le
  have htaken := inv.taken_le
  have hn : g.order[g.first]? = some g.order[g.first] := List.getElem?_eq_getElem (by omega)
  obtain ⟨b, hnext⟩ : ∃ b, g.order[g.first + 1]? = some b :=
    ⟨_, List.getElem?_eq_getElem (by omega)⟩
  refine ⟨_, some b, inv.first.trans hn, ?_, ?_⟩
  · -- the first node is before the copy, so it is linked to a next one
    exact (inv.chain.linked _ _ _ le_rfl hn hnext).resolve_right fun h => h.2
  · exact
      { inv with
        chain := inv.chain.retire (Nat.le_succ _)
        first_le := hlt
        first := hnext.symm
        last := by
          have hlast := inv.last
          rw [hl] at hlast
          exact hlast
        head := trivial
        producer := by
          refine ⟨inv.live le_rfl hn, fun i hi hmem => ?_⟩
          -- the node was in the chain once
          have heq := inv.chain.distinct i g.first _ (Nat.le_of_succ_le hi) le_rfl hmem hn
          have hi' : g.first + 1 ≤ i := hi
          omega }

/-- The producer writes a field of a node outside of the chain. -/
theorem Inv.write (inv : Inv g q l m) {n : Nat} {h' : Heap α} {l' : Producer α}
    (hfree : ∀ i, g.first ≤ i → g.order[i]? ≠ some n)
    (hlast : lastLinked q l = q.head) (hlast' : lastLinked q l' = q.head)
    (hnext : ∀ p, p ≠ n → h'.nextOf p = q.heap.nextOf p)
    (hvalue : ∀ p, p ≠ n → h'.valueOf p = q.heap.valueOf p)
    (hhead : HeadInv g { q with heap := h' } l')
    (hl : ProducerInv g { q with heap := h' } l') : Inv g { q with heap := h' } l' m := by
  -- the chain does not come by the node, so it is read as before
  have hne : ∀ i p, g.first ≤ i → g.order[i]? = some p → p ≠ n := by
    rintro i p hi hp rfl
    exact hfree i hi hp
  have hfirst := inv.first_le.trans inv.copy_le
  exact
    { inv with
      chain := inv.chain.frame (fun i p hi hp => hnext p (hne i p hi hp)) fun _ _ h => h
      last := by
        have hold := inv.last
        rw [hlast] at hold
        rw [hold]
        exact congrArg some (show q.head = lastLinked { q with heap := h' } l' from by
          rw [← hlast']
          cases l' <;> rfl)
      head := hhead
      values := fun i p hi hp => by
        have hp' : p ≠ n := hne (i + 1) p (by omega) hp
        show h'.valueOf p = g.accepted[i]?
        rw [hvalue p hp']
        exact inv.values i p hi hp
      producer := hl }

/-- A new node is outside of the chain. -/
theorem Inv.fresh_free (inv : Inv g q l m) (i : Nat) (hi : g.first ≤ i) :
    g.order[i]? ≠ some q.heap.fresh := fun h =>
  inv.live hi h (q.heap.unused _ le_rfl)

/-- The last node before the link, and its position. -/
theorem Inv.head_get (inv : Inv g q l m) (hl : lastLinked q l = q.head) :
    g.first ≤ g.accepted.length ∧ g.order[g.accepted.length]? = some q.head := by
  have hfirst := inv.first_le.trans (inv.copy_le.trans inv.taken_le)
  exact ⟨hfirst, hl ▸ inv.last⟩

/-- **The link.** The node behind `m_head` becomes the last one, and its value is in the
    queue. -/
theorem Inv.storeLink (inv : Inv g q l m) {v : α} {n : Nat} (hl : l = .storeLink v n) :
    q.heap.get q.head ≠ none ∧
      Inv { g with order := g.order ++ [n], accepted := g.accepted ++ [v] }
        { q with heap := q.heap.setNext q.head (some n) } (.storeHead n) m := by
  have hheld := inv.producer
  have hlen := inv.length
  have htaken := inv.taken_le
  obtain ⟨hfirst, hhead⟩ := inv.head_get (by rw [hl]; rfl)
  have hlive := inv.live hfirst hhead
  rw [hl] at hheld
  obtain ⟨⟨hn, hfree⟩, hval, hnull⟩ := hheld
  have hlast : g.order.length - 1 = g.accepted.length := by omega
  -- the node is appended with the link to it pending, and the link is stored at once
  have happend : Chain q.heap (g.order ++ [n]) g.first fun a _ => a = q.head := by
    refine inv.chain.append hfree hnull (fun _ _ h => h.elim) fun a ha => ?_
    rw [hlast, hhead] at ha
    exact (Option.some.inj ha).symm
  have hold : ∀ {i : Nat}, i < g.order.length → (g.order ++ [n])[i]? = g.order[i]? := fun hi =>
    List.getElem?_append_left hi
  have hnew : (g.order ++ [n])[g.order.length]? = some n := by simp
  have hhead' : (g.order ++ [n])[g.accepted.length]? = some q.head := by
    rw [hold (by omega), hhead]
  refine ⟨hlive,
    { inv with
      chain := happend.link hfirst hhead' (by rw [← hlen]; exact hnew)
        fun a' _ hne h => absurd h hne
      length := ?_
      taken_le := ?_
      first := ?_
      copy := ?_
      tail := ?_
      last := ?_
      head := ?_
      values := ?_
      producer := trivial
      consumer := ?_ }⟩
  · show (g.order ++ [n]).length = (g.accepted ++ [v]).length + 1
    simp [hlen]
  · show g.taken ≤ (g.accepted ++ [v]).length
    rw [List.length_append]
    omega
  · exact inv.first.trans (hold (i := g.first) (by omega)).symm
  · have := inv.copy_le
    exact inv.copy.trans (hold (i := g.copy) (by omega)).symm
  · exact inv.tail.trans (hold (i := g.taken) (by omega)).symm
  · show (g.order ++ [n])[(g.accepted ++ [v]).length]? = some n
    rw [List.length_append, List.length_singleton, ← hlen]
    exact hnew
  · exact ⟨g.accepted.length, by simp, hhead'⟩
  · intro i p hi hp
    change (g.order ++ [n])[i + 1]? = some p at hp
    show (q.heap.setNext q.head (some n)).valueOf p = (g.accepted ++ [v])[i]?
    rw [Heap.valueOf_setNext]
    -- the older nodes keep their values, and the new one has the value just accepted
    rcases Nat.lt_or_ge (i + 1) g.order.length with hlt | hge
    · rw [hold hlt] at hp
      rw [List.getElem?_append_left (by omega)]
      exact inv.values i p hi hp
    · have hle := (List.getElem?_eq_some_iff.mp hp).1
      rw [List.length_append, List.length_singleton] at hle
      obtain rfl : i = g.accepted.length := by omega
      rw [← hlen, hnew] at hp
      obtain rfl := Option.some.inj hp
      rw [hval, getElem?_accept]
  · have hcons := inv.consumer
    -- the consumer's pointers name nodes of the chain that are still at their positions
    cases m with
    | idle => trivial
    | testNext => trivial
    | readNext => exact hcons.trans_le (by simp)
    | readValue p =>
      have := hcons.1
      exact ⟨hcons.1.trans_le (by simp), hcons.2.trans (hold (i := g.taken + 1) (by omega)).symm⟩
    | readNextAgain w => exact getElem?_mono (List.prefix_append _ _) hcons
    | storeTail w p =>
      have hlt := (List.getElem?_eq_some_iff.mp hcons.1).1
      exact ⟨getElem?_mono (List.prefix_append _ _) hcons.1,
        hcons.2.trans (hold (i := g.taken + 1) (by omega)).symm⟩
    | faulted => exact hcons

/-- `m_head` follows. -/
theorem Inv.storeHead (inv : Inv g q l m) {n : Nat} (hl : l = .storeHead n) :
    Inv g { q with head := n } .idle m :=
  { inv with
    last := by
      have hlast := inv.last
      rw [hl] at hlast
      exact hlast
    head := trivial
    producer := trivial }

/-- **One access of `enqueue`.** -/
theorem Inv.enqueue_moves (inv : Inv g q l m) {q' : Shared α} {l' : Producer α}
    {es : List (Event α)} (h : enqueue q l = some (q', l', es)) :
    ∃ g', Inv g' q' l' m ∧ Follows g g' es ∧ Moves g g' q q' l l' := by
  cases l with
  | idle => exact absurd h (by simp [enqueue])
  | faulted => exact inv.producer.elim
  | compareCopy v =>
    simp only [enqueue] at h
    split at h <;> cases h
    · -- `m_first` is not the copy, so the first node may be taken
      rename_i hne
      exact ⟨g, inv.producer_quiet rfl trivial (inv.first_lt_copy hne), Follows.refl g,
        .of_stocked id fun v => by simp⟩
    · exact ⟨g, inv.producer_quiet rfl trivial trivial, Follows.refl g,
        .of_stocked id fun v => by simp⟩
  | loadTail v =>
    cases h
    exact ⟨_, inv.loadTail rfl, Follows.refl g, id, fun _ _ => rfl,
      fun _ h => absurd h (by simp)⟩
  | compareAgain v =>
    simp only [enqueue] at h
    split at h <;> cases h
    · rename_i hne
      exact ⟨g, inv.producer_quiet rfl trivial (inv.first_lt_copy hne), Follows.refl g,
        .of_stocked id fun v => by simp⟩
    · rename_i heq
      refine ⟨g, inv.producer_quiet rfl trivial trivial, Follows.refl g, id,
        fun _ h => absurd h (by simp), fun w hw => ?_⟩
      cases hw
      exact ⟨rfl, rfl, inv.first_eq_copy (not_not.mp heq)⟩
  | takeFirst v =>
    obtain ⟨n, next, hn, hnext, inv'⟩ := inv.takeFirst rfl
    simp only [enqueue, hn, hnext] at h
    cases h
    refine ⟨_, inv', Follows.refl g, .of_stocked (fun hstock => ?_) fun v => by simp⟩
    show q.heap.fresh + (g.first + 1) = g.order.length + 1
    exact congrArg (· + 1) hstock
  | writeValue v n =>
    obtain ⟨hlive, hfree⟩ := inv.producer
    obtain ⟨x, hx⟩ := Option.ne_none_iff_exists'.mp hlive
    simp only [enqueue, hx] at h
    cases h
    exact ⟨g, inv.write hfree rfl rfl (fun p _ => Heap.nextOf_setValue v)
      (fun p hp => Heap.valueOf_setValue_of_ne v hp) trivial
      ⟨⟨(Heap.get_setValue_ne_none v).mpr hlive, hfree⟩, Heap.valueOf_setValue_self v hlive⟩,
      Follows.refl g, .of_stocked id fun v => by simp⟩
  | newNode v =>
    cases h
    -- the new node has the next free address, which no node of the chain has
    have hget : (q.heap.alloc { next := none, value := v }).get q.heap.fresh =
        some { next := none, value := v } := by simp
    have hinv : ProducerInv g { q with heap := q.heap.alloc { next := none, value := v } }
        (.clearNext v q.heap.fresh) :=
      ⟨⟨by rw [hget]; simp, inv.fresh_free⟩, Heap.valueOf_eq_some hget⟩
    refine ⟨g, inv.write inv.fresh_free rfl rfl
      (fun p hp => Heap.nextOf_alloc_of_ne { next := none, value := v } hp)
      (fun p hp => Heap.valueOf_alloc_of_ne { next := none, value := v } hp) trivial hinv,
      Follows.refl g, .of_stocked (fun hstock => ?_) fun v => by simp⟩
    have hstock' : q.heap.fresh + g.first = g.order.length + 0 := hstock
    show q.heap.fresh + 1 + g.first = g.order.length + 1
    omega
  | clearNext v n =>
    obtain ⟨⟨hlive, hfree⟩, hval⟩ := inv.producer
    obtain ⟨x, hx⟩ := Option.ne_none_iff_exists'.mp hlive
    simp only [enqueue, hx] at h
    cases h
    refine ⟨g, inv.write hfree rfl rfl (fun p hp => Heap.nextOf_setNext_of_ne none hp)
      (fun p _ => Heap.valueOf_setNext none) trivial
      ⟨⟨(Heap.get_setNext_ne_none none).mpr hlive, hfree⟩, ?_,
        Heap.nextOf_setNext_self none hlive⟩, Follows.refl g, .of_stocked id fun v => by simp⟩
    exact (Heap.valueOf_setNext none).trans hval
  | storeLink v n =>
    obtain ⟨hlive, inv'⟩ := inv.storeLink rfl
    obtain ⟨x, hx⟩ := Option.ne_none_iff_exists'.mp hlive
    simp only [enqueue, hx] at h
    cases h
    refine ⟨_, inv', ⟨rfl, ?_⟩, .of_stocked (fun hstock => ?_) fun v => by simp⟩
    · show (g.accepted ++ [v]).take g.taken = g.accepted.take g.taken ++ []
      -- nothing is delivered by an acceptance
      rw [List.append_nil, List.take_append_of_le_length inv.taken_le]
    · show q.heap.fresh + g.first = (g.order ++ [n]).length + 0
      rw [List.length_append]
      exact hstock
  | storeHead n =>
    cases h
    exact ⟨g, inv.storeHead rfl, Follows.refl g, .of_stocked id fun v => by simp⟩

/-- The accesses of `enqueue` keep the invariant. -/
theorem Inv.enqueue_step (inv : Inv g q l m) {q' : Shared α} {l' : Producer α}
    {es : List (Event α)} (h : enqueue q l = some (q', l', es)) :
    ∃ g', Inv g' q' l' m ∧ Follows g g' es := by
  obtain ⟨g', inv', hfollows, -⟩ := inv.enqueue_moves h
  exact ⟨g', inv', hfollows⟩

/-! ### The consumer -/

/-- **One access of `try_dequeue`.** -/
theorem Inv.tryDequeue_moves (inv : Inv g q l m) {q' : Shared α} {m' : Consumer α}
    {es : List (Event α)} (h : tryDequeue q m = some (q', m', es)) :
    ∃ taken, Inv { g with taken } q' l m' ∧ Follows g { g with taken } es ∧
      q'.heap = q.heap := by
  have hnext := inv.tailNext
  have hlen := inv.length
  have hcons := inv.consumer
  cases m with
  | idle => exact absurd h (by simp [tryDequeue])
  | faulted => exact hcons.elim
  | testNext =>
    simp only [tryDequeue, hnext] at h
    split at h
    · rename_i hnone
      exact absurd hnone (by simp)
    · cases h
      exact ⟨_, { inv with consumer := trivial }, Follows.refl g, rfl⟩
    · rename_i p hp
      cases h
      have hlt := (List.getElem?_eq_some_iff.mp (Option.some.inj hp)).1
      exact ⟨_, { inv with consumer := by show g.taken < g.accepted.length; omega },
        Follows.refl g, rfl⟩
  | readNext =>
    simp only [tryDequeue, hnext] at h
    cases h
    exact ⟨_, { inv with consumer := ⟨hcons, rfl⟩ }, Follows.refl g, rfl⟩
  | readValue p =>
    -- the node behind the tail holds the oldest value that is waiting
    obtain ⟨hlt, rfl⟩ := hcons
    have hp : g.order[g.taken + 1]? = some g.order[g.taken + 1] :=
      List.getElem?_eq_getElem (by omega)
    have hv : g.accepted[g.taken]? = some g.accepted[g.taken] := List.getElem?_eq_getElem hlt
    have hvalue := inv.values _ _ le_rfl hp
    rw [hv] at hvalue
    simp only [tryDequeue, hp, Option.bind_some, hvalue] at h
    cases h
    exact ⟨_, { inv with consumer := hv }, Follows.refl g, rfl⟩
  | readNextAgain v =>
    simp only [tryDequeue, hnext] at h
    cases h
    exact ⟨_, { inv with consumer := ⟨hcons, rfl⟩ }, Follows.refl g, rfl⟩
  | storeTail v p =>
    obtain ⟨hv, rfl⟩ := hcons
    -- the tail moves on, and the old last node joins the cache
    have hlt := (List.getElem?_eq_some_iff.mp hv).1
    cases h
    refine ⟨g.taken + 1,
      { inv with
        copy_le := inv.copy_le.trans (Nat.le_succ _)
        taken_le := hlt
        tail := rfl
        values := fun i p hi hp => inv.values i p (Nat.le_of_succ_le hi) hp
        consumer := trivial }, ⟨(List.append_nil _).symm, ?_⟩, rfl⟩
    show g.accepted.take (g.taken + 1) = g.accepted.take g.taken ++ [v]
    rw [List.take_add_one, hv]
    rfl

/-- The accesses of `try_dequeue` keep the invariant. -/
theorem Inv.tryDequeue_step (inv : Inv g q l m) {q' : Shared α} {m' : Consumer α}
    {es : List (Event α)} (h : tryDequeue q m = some (q', m', es)) :
    ∃ g', Inv g' q' l m' ∧ Follows g g' es := by
  obtain ⟨taken, inv', hfollows, -⟩ := inv.tryDequeue_moves h
  exact ⟨_, inv', hfollows⟩

end

end HopeThreading.SpscQueue
