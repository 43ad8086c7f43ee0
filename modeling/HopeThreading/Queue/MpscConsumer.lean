import HopeThreading.Queue.MpscProducers

namespace HopeThreading.MpscQueue

open Transition Memory

/-!
# `mpsc_queue` — the accesses of the consumer keep the invariant

The lemmas follow `try_dequeue`: the value is moved out of the successor of `m_tail`
(`Inv.move_value`), `m_tail` advances to it (`Inv.advance_tail`), its value is cleared
(`Inv.clear_value`), and with `newOnly` the old tail is deleted (`Inv.delete_tail`).
`Inv.tryDequeue_step` collects them and `Inv.step` both sides.
-/

variable {ι α : Type*} {policy : AllocPolicy} {g : History α} {s : State ι α}

/-- Overwriting the value of a node of the queue affects no link and no producer. -/
theorem Inv.write_value (inv : Inv policy g s) {j p : Nat} (x : α) (hj : g.retired ≤ j)
    (hp : g.order[j]? = some p) :
    Chain (s.shared.heap.setValue p x) g.order g.retired (Pending s.producers) ∧
      ∀ t, ProducerInv policy g (s.shared.heap.setValue p x) (s.producers t) := by
  refine ⟨inv.chain.frame (fun _ _ _ _ => Heap.nextOf_setValue _) (fun _ _ h => h), fun t => ?_⟩
  refine (inv.producers t).frame (fun _ r hr => (Heap.get_setValue_ne_none _).mpr hr) ?_ ?_
    (List.prefix_refl _) (List.prefix_refl _)
  · intro r _ hheld
    have hne : r ≠ p := by
      rintro rfl
      exact hheld.2 j hj hp
    exact ⟨⟨(Heap.get_setValue_ne_none _).mpr hheld.1, hheld.2⟩,
      Heap.valueOf_setValue_of_ne _ hne, Heap.nextOf_setValue _⟩
  · exact fun i r _ _ hi hnull => ⟨(Heap.nextOf_setValue _).trans hnull, hi⟩

/-- An access of the consumer that changes nothing but its own local state. -/
theorem Inv.local_consumer (inv : Inv policy g s) {l : Consumer α}
    (hfirst : firstValue g l = firstValue g s.consumer)
    (hl : ConsumerInv policy g s.shared l) : Inv policy g { s with consumer := l } :=
  { inv with
    values := fun i p hi => inv.values i p (hfirst ▸ hi)
    consumer := hl }

/-- The successor of `m_tail` carries the first value that was not taken yet. -/
theorem Inv.first_value (inv : Inv policy g s) {p : Nat}
    (hlink : s.shared.heap.nextOf s.shared.tail = some (some p)) :
    g.order[g.taken.length + 1]? = some p ∧
      ∃ v, g.accepted[g.taken.length]? = some v := by
  have hp := inv.next_of_link inv.retired inv.tail hlink
  have hlt := (List.getElem?_eq_some_iff.mp hp).1
  have hlen := inv.length
  exact ⟨hp, _, List.getElem?_eq_getElem (by omega)⟩

/-- `v = std::move(popped->value)`. -/
theorem Inv.move_value (inv : Inv policy g s) {p : Nat} {v : α} (x : α)
    (hl : s.consumer = .moveValue p) (hv : s.shared.heap.valueOf p = some v) :
    Inv policy g { s with shared := { s.shared with heap := s.shared.heap.setValue p x },
                          consumer := .advanceTail p v } := by
  have hc : ConsumerInv policy g s.shared (.moveValue p) := hl ▸ inv.consumer
  obtain ⟨hsettled, hlink⟩ := hc
  obtain ⟨hp, -⟩ := inv.first_value hlink
  have hret := inv.retired
  obtain ⟨hchain, hprod⟩ := inv.write_value x (by omega) hp
  have hacc : g.accepted[g.taken.length]? = some v := by
    rw [← hv]
    refine (inv.values _ p ?_ hp).symm
    rw [hl]; exact le_rfl
  refine { inv with chain := hchain, producers := hprod, values := ?_, consumer := ?_ }
  · intro i r hi hr
    have hi' : g.taken.length + 1 ≤ i := hi
    -- the later values are in other nodes
    have hne : r ≠ p := by
      rintro rfl
      have := inv.chain.distinct _ _ _ (by omega) (by omega) hr hp
      omega
    rw [Heap.valueOf_setValue_of_ne _ hne]
    refine inv.values i r ?_ hr
    rw [hl]
    exact Nat.le_of_succ_le hi'
  · exact ⟨hsettled, (Heap.nextOf_setValue _).trans hlink, hacc⟩

/-- `old_tail = m_tail; m_tail = popped`. -/
theorem Inv.advance_tail (inv : Inv policy g s) {p : Nat} {v : α}
    (hl : s.consumer = .advanceTail p v) :
    Inv policy { g with taken := g.taken ++ [v] }
      { s with shared := { s.shared with tail := p },
               consumer := .clearValue s.shared.tail v } := by
  have hc : ConsumerInv policy g s.shared (.advanceTail p v) := hl ▸ inv.consumer
  obtain ⟨⟨hdel, hret'⟩, hlink, hv⟩ := hc
  obtain ⟨hp, -⟩ := inv.first_value hlink
  have hret := inv.retired
  have hlen : (g.taken ++ [v]).length = g.taken.length + 1 := by simp
  refine { inv with
    taken := prefix_deliver inv.taken hv, retired := ?_, tail := ?_, values := ?_,
    producers := ?_, consumer := ⟨?_, ?_⟩ }
  · show g.retired ≤ (g.taken ++ [v]).length
    omega
  · show g.order[(g.taken ++ [v]).length]? = some p
    rw [hlen]; exact hp
  · intro i r hi hr
    refine inv.values i r ?_ hr
    rw [hl]
    have hi' : (g.taken ++ [v]).length ≤ i := hi
    show g.taken.length + 1 ≤ i
    omega
  · intro t
    refine (inv.producers t).frame (fun _ _ h => h) (fun r _ hr => ⟨hr, rfl, rfl⟩) ?_
      (List.prefix_refl _) (List.prefix_refl _)
    intro i r _ hr hi hnull
    refine ⟨hnull, ?_⟩
    show (g.taken ++ [v]).length ≤ i
    -- the link of the old tail is stored, so no producer links from it any more
    have hne : i ≠ g.taken.length := by
      rintro rfl
      obtain rfl := Option.some.inj (inv.tail.symm.trans hr)
      rw [hlink] at hnull
      exact absurd (Option.some.inj hnull) (by simp)
    omega
  · show g.taken ++ [v] = g.delivered ++ [v]
    rw [hdel]
  · intro hpol
    show g.retired + 1 = (g.taken ++ [v]).length ∧ _
    rw [hlen, hret' hpol]
    exact ⟨rfl, inv.tail⟩

/-- `m_tail->value = { }`, and the return with the buffered policy. -/
theorem Inv.clear_value (inv : Inv policy g s) {old : Nat} {v : α} (x : α)
    {g' : History α} {l : Consumer α} (hl : s.consumer = .clearValue old v)
    (hg : g' = { g with delivered := g'.delivered })
    (hfirst : firstValue g' l = g.taken.length)
    (hc : ∀ q : Shared α, ConsumerInv policy g' q l) :
    Inv policy g' { s with
      shared := { s.shared with heap := s.shared.heap.setValue s.shared.tail x },
      consumer := l } := by
  have hret := inv.retired
  obtain ⟨hchain, hprod⟩ := inv.write_value x hret inv.tail
  rw [hg]
  refine { inv with chain := hchain, values := ?_, producers := fun t => ?_, consumer := ?_ }
  · intro i r hi hr
    have hi' : g.taken.length ≤ i := by rw [← hfirst, hg]; exact hi
    -- the tail is the dummy node, whose value nobody waits for
    have hne : r ≠ s.shared.tail := by
      rintro rfl
      have := inv.chain.distinct (i + 1) _ _ (by omega) hret hr inv.tail
      omega
    show (s.shared.heap.setValue s.shared.tail x).valueOf r = g.accepted[i]?
    rw [Heap.valueOf_setValue_of_ne _ hne]
    refine inv.values i r ?_ hr
    rw [hl]
    exact hi'
  · exact (hprod t).frame (fun _ _ h => h) (fun r _ hr => ⟨hr, rfl, rfl⟩)
      (fun _ _ _ _ hi hn => ⟨hn, hi⟩) (List.prefix_refl _) (List.prefix_refl _)
  · exact hg ▸ hc _

/-- `delete old_tail`, and the return. -/
theorem Inv.delete_tail (inv : Inv policy g s) {old : Nat} {v : α}
    (hl : s.consumer = .deleteTail old v) :
    Inv policy { g with retired := g.retired + 1, delivered := g.delivered ++ [v] }
      { s with shared := { s.shared with heap := s.shared.heap.free old },
               consumer := .idle } := by
  have hc : ConsumerInv policy g s.shared (.deleteTail old v) := hl ▸ inv.consumer
  obtain ⟨hpol, htaken, hold⟩ := hc
  obtain ⟨hret, hold⟩ := hold hpol
  -- only the node about to be deleted lies before the tail
  have hne : ∀ i r, g.retired + 1 ≤ i → g.order[i]? = some r → r ≠ old := by
    rintro i r hi hr rfl
    have := inv.chain.distinct i _ r (by omega) le_rfl hr hold
    omega
  have hnb : policy ≠ .buffered := by rw [hpol]; simp
  refine ⟨?_, inv.length, inv.taken, hret.le, inv.head, inv.tail, fun h => absurd h hnb, ?_,
    fun t => ?_, inv.holders, inv.linkers, htaken.symm, fun _ => hret⟩
  · exact (inv.chain.retire (Nat.le_succ _)).frame
      (fun i r hi hr => Heap.nextOf_free_of_ne (hne i r hi hr)) fun _ _ h => h
  · intro i r hi hr
    have hi' : g.taken.length ≤ i := hi
    show (s.shared.heap.free old).valueOf r = g.accepted[i]?
    rw [Heap.valueOf_free_of_ne (hne (i + 1) r (by omega) hr)]
    refine inv.values i r ?_ hr
    rw [hl]
    exact hi
  · refine (inv.producers t).frame (fun h => absurd h hnb) ?_ ?_
      (List.prefix_refl _) (List.prefix_refl _)
    · intro r _ hheld
      have hro : r ≠ old := by
        rintro rfl
        exact hheld.2 _ le_rfl hold
      refine ⟨⟨?_, fun i hi => hheld.2 i (Nat.le_of_succ_le hi)⟩,
        Heap.valueOf_free_of_ne hro, Heap.nextOf_free_of_ne hro⟩
      show (s.shared.heap.free old).get r ≠ none
      rw [Heap.get_free, if_neg hro]; exact hheld.1
    · intro i r _ hr hi hnull
      exact ⟨(Heap.nextOf_free_of_ne (hne i r (by omega) hr)).trans hnull, hi⟩

/-- An access of `try_dequeue` keeps the invariant, and does not fault. -/
theorem Inv.tryDequeue_step (inv : Inv policy g s) {moved : α → α} {blank : α}
    {r : Shared α × Consumer α × List (Event ι α)}
    (h : MpscQueue.tryDequeue policy moved blank s.shared s.consumer = some r) :
    Keeps policy g (s.consumed r) := by
  have hlocal := inv.consumer
  have htail : s.shared.heap.get s.shared.tail ≠ none := inv.live inv.retired inv.tail
  cases hl : s.consumer <;> rw [hl] at h hlocal <;> simp only [MpscQueue.tryDequeue] at h
  case idle => exact absurd h (by simp)
  case readNext =>
    obtain ⟨x, hx⟩ := Option.ne_none_iff_exists'.mp htail
    have hnext := Heap.nextOf_eq_some hx
    simp only [hnext] at h
    cases hlink : x.next <;> simp only [hlink] at h <;> cases h
    case none => exact ⟨inv.local_consumer (by rw [hl]; rfl) hlocal, by simp [State.consumed]⟩
    case some p =>
      exact ⟨inv.local_consumer (by rw [hl]; rfl) ⟨hlocal, hnext.trans (by rw [hlink])⟩,
        by simp [State.consumed]⟩
  case moveValue p =>
    obtain ⟨hp, v, hv⟩ := inv.first_value hlocal.2
    have hval : s.shared.heap.valueOf p = some v := by
      rw [← hv]
      exact inv.values _ p (by rw [hl]; exact le_rfl) hp
    -- the next node is alive and has the oldest value that is waiting
    simp only [hval] at h
    cases h
    exact ⟨inv.move_value _ hl hval, by simp [State.consumed]⟩
  case advanceTail p v => cases h; exact ⟨inv.advance_tail hl, by simp [State.consumed]⟩
  case clearValue old v =>
    obtain ⟨x, hx⟩ := Option.ne_none_iff_exists'.mp htail
    simp only [hx] at h
    cases policy <;> simp only [] at h <;> cases h
    case buffered =>
      refine ⟨inv.clear_value _ hl rfl rfl fun q => ?_, by simp [State.consumed]⟩
      exact ⟨hlocal.1.symm, fun h => absurd h (by simp)⟩
    case newOnly =>
      exact ⟨inv.clear_value _ hl rfl rfl fun q => ⟨rfl, hlocal⟩, by simp [State.consumed]⟩
  case deleteTail old v =>
    obtain ⟨hpol, -, hold⟩ := hlocal
    obtain ⟨x, hx⟩ := Option.ne_none_iff_exists'.mp (inv.live le_rfl (hold hpol).2)
    simp only [hx] at h
    cases h
    exact ⟨inv.delete_tail hl, by simp [State.consumed]⟩
  case faulted => exact hlocal.elim

variable [DecidableEq ι]

/-- **Step lemma.** Every step keeps the invariant and does not fault, with the buffered
    policy on the condition that it is not stale. -/
theorem Inv.step (inv : Inv policy g s) {moved : α → α} {blank : α} {a : Action ι α}
    {s' : State ι α} {es : List (Event ι α)} (hok : policy = .buffered → NotStale s a)
    (h : next policy moved blank s a = some (s', es)) : Keeps policy g (s', es) := by
  rcases next_cases h with ⟨t, v, -, hl, he⟩ | ⟨t, r, rfl, hr, he⟩ | ⟨-, hl, he⟩ | ⟨r, -, hr, he⟩
  · rw [he]
    refine ⟨inv.local_producer ?_ (by rw [hl]; rfl) ?_ ?_, by simp [State.produced]⟩ <;>
      cases policy <;> first | rfl | trivial
  · rw [he]; exact inv.enqueue_step hok hr
  · rw [he]
    have hlocal := inv.consumer
    rw [hl] at hlocal
    exact ⟨inv.local_consumer (by rw [hl]; rfl) hlocal, by simp [State.consumed]⟩
  · rw [he]; exact inv.tryDequeue_step hr

/-! ### Runs -/

/-- The freshly constructed queue satisfies the invariant. -/
theorem inv_init (policy : AllocPolicy) (moved : α → α) (blank : α) :
    Inv policy (history ([] : List (Event ι α))) (machine (ι := ι) policy moved blank).init := by
  have hget : (machine (ι := ι) policy moved blank).init.shared.heap.get 0 =
      some { next := none, value := blank } := rfl
  refine ⟨⟨?_, ?_, ?_⟩, rfl, List.prefix_refl _, le_rfl, rfl, rfl, fun _ => rfl, ?_,
    fun _ => trivial, fun _ _ _ h => absurd h (by simp [machine, holding]),
    fun _ _ _ h => absurd h (by simp [machine, linking]), rfl, fun _ => rfl⟩
  · intro i j p _ _ hi hj
    have hi' := (List.getElem?_eq_some_iff.mp hi).1
    have hj' := (List.getElem?_eq_some_iff.mp hj).1
    have hi1 : i < 1 := hi'
    have hj1 : j < 1 := hj'
    omega
  · intro i a b _ _ hb
    exact absurd hb (by simp [history])
  · intro i a _ ha _
    have hi := (List.getElem?_eq_some_iff.mp ha).1
    obtain rfl : i = 0 := by simpa [history] using hi
    obtain rfl : 0 = a := by simpa [history] using ha
    rw [Heap.nextOf_eq_some hget]
  · intro i p _ hp
    exact absurd hp (by simp [history])

/-- **Run lemma.** Along every run, with the buffered policy one without a stale exchange,
    the invariant holds and nothing faults. -/
theorem Inv.of_run {policy : AllocPolicy} {moved : α → α} {blank : α}
    {ok : State ι α → Action ι α → Prop} (hok : policy = .buffered → ∀ s a, ok s a → NotStale s a)
    {tr : List (Event ι α)} {s : State ι α}
    (run : (machine policy moved blank).RunIf ok tr s) :
    Inv policy (history tr) s ∧ .faulted ∉ tr := by
  refine Machine.RunIf.invariant (I := fun tr s => Inv policy (history tr) s ∧ .faulted ∉ tr)
    ⟨inv_init policy moved blank, by simp⟩ ?_ run
  rintro tr es s s' a - ⟨inv, hnf⟩ allowed step
  obtain ⟨h1, h2⟩ := inv.step (fun hb => hok hb s a allowed) step
  refine ⟨history_append tr es ▸ h1, ?_⟩
  rw [List.mem_append]
  exact fun h => h.elim hnf h2

end HopeThreading.MpscQueue
