import HopeThreading.Queue.MpscInv

namespace HopeThreading.MpscQueue

open Transition Memory

/-!
# `mpsc_queue` — the accesses of a producer keep the invariant

Most accesses of a producer only touch a node it holds (`Inv.producer_step`); the ones
that matter are the compare-exchange on `m_buffer_head` (`Inv.recycle`), the `m_head`
exchange (`Inv.exchange`) and the link store (`Inv.store_link`).  `Inv.enqueue_step`
collects them.
-/

variable {ι α : Type*} [DecidableEq ι]
variable {policy : AllocPolicy} {g : History α} {s : State ι α}

/-! ### Producers -/

/-- A pending link stays pending while its producer does not move. -/
theorem Pending.update {producers : ι → Producer α} {t : ι} {l : Producer α} {a b : Nat}
    (h : Pending producers a b) (hne : linking (producers t) ≠ some a) :
    Pending (Function.update producers t l) a b := by
  obtain ⟨u, v, hu⟩ := h
  have hut : u ≠ t := by
    rintro rfl
    exact hne (by rw [hu]; rfl)
  exact ⟨u, v, by rw [Function.update_of_ne hut]; exact hu⟩

/-- The facts of all producers after producer `t` moved to `l`. -/
theorem producers_update {g' : History α} {h' : Heap α} {producers : ι → Producer α} {t : ι}
    {l : Producer α} (hothers : ∀ u, u ≠ t → ProducerInv policy g' h' (producers u))
    (hl : ProducerInv policy g' h' l) :
    ∀ u, ProducerInv policy g' h' (Function.update producers t l u) := by
  intro u
  by_cases hu : u = t
  · subst hu; rw [Function.update_self]; exact hl
  · rw [Function.update_of_ne hu]; exact hothers u hu

/-- An access that leaves alone the nodes of the queue and those held by others. -/
theorem Inv.producer_step (inv : Inv policy g s) {t : ι} {l : Producer α} {h' : Heap α}
    (hchain : ∀ i p, g.retired ≤ i → g.order[i]? = some p →
      h'.nextOf p = s.shared.heap.nextOf p ∧ h'.valueOf p = s.shared.heap.valueOf p)
    (hlive : ∀ p, s.shared.heap.get p ≠ none → h'.get p ≠ none)
    (hothers : ∀ u p, u ≠ t → holding (s.producers u) = some p →
      h'.nextOf p = s.shared.heap.nextOf p ∧ h'.valueOf p = s.shared.heap.valueOf p)
    (hl : ProducerInv policy g h' l) (hfrom : linking (s.producers t) = none)
    (hto : linking l = none) (hhold : Exclusive holding (Function.update s.producers t l)) :
    Inv policy g { s with shared := { s.shared with heap := h' },
                          producers := Function.update s.producers t l } where
  chain := inv.chain.frame (fun i p hi hp => (hchain i p hi hp).1)
    fun a b hab => hab.update (by rw [hfrom]; simp)
  length := inv.length
  taken := inv.taken
  retired := inv.retired
  head := inv.head
  tail := inv.tail
  buffer := inv.buffer
  values := by
    intro i p hi hp
    -- the values that count are behind the tail, in nodes of the chain
    have hfirst : g.taken.length ≤ firstValue g s.consumer := by
      unfold firstValue; split <;> omega
    have hret := inv.retired
    have hle : firstValue g s.consumer ≤ i := hi
    rw [(hchain (i + 1) p (by omega) hp).2]
    exact inv.values i p hi hp
  producers := by
    refine producers_update (fun u hu => (inv.producers u).frame (fun _ => hlive) ?_ ?_
      (List.prefix_refl _) (List.prefix_refl _)) hl
    · intro p hp hheld
      obtain ⟨hn, hv⟩ := hothers u p hu hp
      exact ⟨⟨hlive p hheld.1, hheld.2⟩, hv, hn⟩
    · intro i p _ hp hi hnull
      rw [(hchain i p (inv.retired.trans hi) hp).1]
      exact ⟨hnull, hi⟩
  holders := hhold
  linkers := inv.linkers.drop hto
  consumer := by
    refine inv.consumer.frame (fun p hp => ?_) rfl rfl (fun _ => rfl) (List.prefix_refl _)
      (List.prefix_refl _)
    exact (hchain _ _ inv.retired inv.tail).1.trans hp

/-- An access of a producer that changes nothing but its own local state. -/
theorem Inv.local_producer (inv : Inv policy g s) {t : ι} {l : Producer α}
    (hl : ProducerInv policy g s.shared.heap l) (hfrom : linking (s.producers t) = none)
    (hto : linking l = none) (hhold : holding l = none) :
    Inv policy g { s with producers := Function.update s.producers t l } :=
  inv.producer_step (fun _ _ _ _ => ⟨rfl, rfl⟩) (fun _ h => h) (fun _ _ _ _ => ⟨rfl, rfl⟩) hl hfrom
    hto (inv.holders.drop hhold)

omit [DecidableEq ι] in
/-- What a producer holds is live and not in the queue. -/
theorem Inv.held (inv : Inv policy g s) {u : ι} {p : Nat}
    (hp : holding (s.producers u) = some p) : Held g s.shared.heap p := by
  have hlocal := inv.producers u
  cases hu : s.producers u <;> rw [hu] at hp hlocal <;> simp only [holding] at hp
  case writeValue => exact Option.some.inj hp ▸ hlocal
  case clearNext => exact Option.some.inj hp ▸ hlocal.1
  case exchangeHead => exact Option.some.inj hp ▸ hlocal.1
  all_goals exact absurd hp (by simp)

/-- `new node(in_value)`. -/
theorem Inv.allocate (inv : Inv policy g s) {t : ι} {v : α}
    (hl : s.producers t = .newNode v) :
    Inv policy g { s with
      shared := { s.shared with heap := s.shared.heap.alloc { next := none, value := v } },
      producers := Function.update s.producers t (.exchangeHead v s.shared.heap.fresh) } := by
  have hne : ∀ {p}, s.shared.heap.get p ≠ none → p ≠ s.shared.heap.fresh := by
    rintro p hp rfl
    exact hp (s.shared.heap.unused _ le_rfl)
  have hsame : ∀ {p}, s.shared.heap.get p ≠ none →
      (s.shared.heap.alloc { next := none, value := v }).nextOf p = s.shared.heap.nextOf p ∧
      (s.shared.heap.alloc { next := none, value := v }).valueOf p = s.shared.heap.valueOf p :=
    fun hp => ⟨Heap.nextOf_alloc_of_ne _ (hne hp), Heap.valueOf_alloc_of_ne _ (hne hp)⟩
  refine inv.producer_step (fun i p hi hp => hsame (inv.live hi hp))
    (fun p hp => Heap.get_alloc_ne_none _ hp) (fun u p _ hp => hsame (inv.held hp).1)
    ⟨⟨?_, fun i hi => inv.fresh_not_mem hi⟩, ?_, ?_⟩ (by rw [hl]; rfl) rfl
    (inv.holders.take fun p hp u _ hu => ?_)
  · rw [Heap.get_alloc, if_pos rfl]; simp
  · rw [Heap.valueOf, Heap.get_alloc, if_pos rfl]; rfl
  · rw [Heap.nextOf, Heap.get_alloc, if_pos rfl]; rfl
  · obtain rfl : s.shared.heap.fresh = p := Option.some.inj hp
    exact hne (inv.held hu).1 rfl

/-- An access that writes to the node `p` its producer holds. -/
theorem Inv.write_held (inv : Inv policy g s) {t : ι} {l : Producer α} {h' : Heap α} {p : Nat}
    (hp : holding (s.producers t) = some p) (hp' : holding l = some p)
    (hother : ∀ r, r ≠ p → h'.nextOf r = s.shared.heap.nextOf r ∧
      h'.valueOf r = s.shared.heap.valueOf r)
    (hlive : ∀ r, s.shared.heap.get r ≠ none → h'.get r ≠ none)
    (hl : ProducerInv policy g h' l) (hfrom : linking (s.producers t) = none)
    (hto : linking l = none) :
    Inv policy g { s with shared := { s.shared with heap := h' },
                          producers := Function.update s.producers t l } := by
  refine inv.producer_step (fun i r hi hr => hother r ?_) hlive (fun u r hu hr => hother r ?_) hl
    hfrom hto (inv.holders.keep (by rw [hp, hp']))
  · rintro rfl
    exact (inv.held hp).2 i hi hr
  · rintro rfl
    exact hu (inv.holders hr hp)

/-- A compare-exchange that takes the first node out of the buffer, with what was read of
    it still true. -/
theorem Inv.recycle (inv : Inv .buffered g s) {t : ι} {v : α} {p : Nat} {n : Option Nat}
    (hl : s.producers t = .exchangeBufferHead v p n) (hhead : s.shared.bufferHead = some p)
    (hne : p ≠ s.shared.tail) (hnext : s.shared.heap.nextOf p = some n) :
    Inv .buffered { g with retired := g.retired + 1 }
      { s with shared := { s.shared with bufferHead := n },
               producers := Function.update s.producers t (.writeValue v p) } := by
  have hp : g.order[g.retired]? = some p := (inv.buffer rfl).symm.trans hhead
  -- the buffer is not empty, so the node's successor is the next one in the order
  have hlt : g.retired < g.taken.length := by
    refine lt_of_le_of_ne inv.retired fun heq => hne ?_
    rw [heq] at hp
    exact Option.some.inj (hp.symm.trans inv.tail)
  have hle := inv.taken_le
  have hlen := inv.length
  have hsucc := List.getElem?_eq_getElem (l := g.order) (i := g.retired + 1) (by omega)
  have hn : n = g.order[g.retired + 1]? := by
    have := inv.passed le_rfl hlt hp hsucc
    rw [hnext] at this
    rw [hsucc]; exact Option.some.inj this
  have hfree : ∀ i, g.retired + 1 ≤ i → g.order[i]? ≠ some p := by
    intro i hi hip
    have := inv.chain.distinct i g.retired p (by omega) le_rfl hip hp
    omega
  constructor
  case chain =>
    refine (inv.chain.retire (Nat.le_succ _)).frame (fun _ _ _ _ => rfl) fun a b hab => ?_
    exact hab.update (by rw [hl]; simp [linking])
  case length => exact hlen
  case taken => exact inv.taken
  case retired => exact hlt
  case head => exact inv.head
  case tail => exact inv.tail
  case buffer => exact fun _ => hn
  case values => exact inv.values
  case producers =>
    refine producers_update (fun u hu => (inv.producers u).frame (fun _ _ h => h) ?_ ?_
      (List.prefix_refl _) (List.prefix_refl _)) ⟨inv.live le_rfl hp, hfree⟩
    · exact fun r _ hr => ⟨⟨hr.1, fun i hi => hr.2 i (Nat.le_of_succ_le hi)⟩, rfl, rfl⟩
    · exact fun i r _ _ hi hnull => ⟨hnull, hi⟩
  case holders =>
    -- the node was in the queue, so nobody holds it
    refine inv.holders.take fun r hr u _ hu => ?_
    obtain rfl : p = r := Option.some.inj hr
    exact (inv.held hu).2 _ le_rfl hp
  case linkers => exact inv.linkers.drop rfl
  case consumer =>
    exact inv.consumer.frame (fun _ h => h) rfl rfl (fun h => absurd h (by simp))
      (List.prefix_refl _) (List.prefix_refl _)

/-- The `m_head` exchange puts the node into the queue; its link is pending. -/
theorem Inv.exchange (inv : Inv policy g s) {t : ι} {v : α} {p : Nat}
    (hl : s.producers t = .exchangeHead v p) :
    Inv policy { g with order := g.order ++ [p], accepted := g.accepted ++ [v] }
      { s with shared := { s.shared with head := p },
               producers := Function.update s.producers t (.storeLink v s.shared.head p) } := by
  have hlocal : ProducerInv policy g s.shared.heap (.exchangeHead v p) := hl ▸ inv.producers t
  obtain ⟨⟨hlive, hnot⟩, hval, hnull⟩ := hlocal
  have hlen := inv.length
  have hle := inv.taken_le
  have hret := inv.retired
  have hheadnull : s.shared.heap.nextOf s.shared.head = some none :=
    inv.chain.last _ _ (by omega) inv.head hlen
  have hown : holding (s.producers t) = some p := by rw [hl]; rfl
  have hp : (g.order ++ [p])[g.accepted.length + 1]? = some p := by
    rw [← hlen]; exact getElem?_accept p
  constructor
  case chain =>
    refine inv.chain.append hnot hnull (fun a b hab => hab.update (by rw [hl]; simp [linking]))
      fun a ha => ⟨t, v, ?_⟩
    rw [hlen, Nat.add_sub_cancel, inv.head] at ha
    show Function.update s.producers t _ t = _
    rw [Function.update_self, Option.some.inj ha]
  case length => simp [hlen]
  case taken => exact prefix_accept inv.taken v
  case retired => exact hret
  case head => simpa using hp
  case tail => exact getElem?_mono (List.prefix_append _ _) inv.tail
  case buffer =>
    intro hb
    show s.shared.bufferHead = (g.order ++ [p])[g.retired]?
    rw [inv.buffer hb, List.getElem?_append_left (by omega)]
  case values =>
    intro i r hi hr
    have hr' : (g.order ++ [p])[i + 1]? = some r := hr
    rcases Nat.lt_or_ge (i + 1) g.order.length with hlt | hge
    · rw [List.getElem?_append_left hlt] at hr'
      show _ = (g.accepted ++ [v])[i]?
      rw [List.getElem?_append_left (by omega)]
      exact inv.values i r hi hr'
    · have hlt := (List.getElem?_eq_some_iff.mp hr').1
      rw [List.length_append, List.length_singleton] at hlt
      obtain rfl : i = g.accepted.length := by omega
      obtain rfl : p = r := Option.some.inj (hp.symm.trans hr')
      exact hval.trans (getElem?_accept v).symm
  case producers =>
    refine producers_update (fun u hu => (inv.producers u).frame (fun _ _ h => h) ?_ ?_
      (List.prefix_append _ _) (List.prefix_append _ _)) ?_
    · intro r hr hheld
      refine ⟨⟨hheld.1, fun i hi hir => ?_⟩, rfl, rfl⟩
      have hir' : (g.order ++ [p])[i]? = some r := hir
      rcases Nat.lt_or_ge i g.order.length with hlt | hge
      · rw [List.getElem?_append_left hlt] at hir'
        exact hheld.2 i hi hir'
      · have hmem : r ∈ [p] := by
          rw [List.getElem?_append_right hge] at hir'
          exact List.mem_of_getElem? hir'
        obtain rfl := List.mem_singleton.mp hmem
        exact hu (inv.holders hr hown)
    · exact fun i r _ _ hi hn => ⟨hn, hi⟩
    · exact ⟨g.accepted.length, hle, getElem?_mono (List.prefix_append _ _) inv.head, hp,
        getElem?_accept v, hheadnull⟩
  case holders => exact inv.holders.drop rfl
  case linkers =>
    -- whoever links from the old head would have found it before the end of the queue
    refine inv.linkers.take fun r hr u hu hur => ?_
    obtain rfl : s.shared.head = r := Option.some.inj hr
    have hulocal := inv.producers u
    cases hus : s.producers u <;> rw [hus] at hur hulocal <;> simp only [linking] at hur
    case storeLink w old q =>
      obtain rfl := Option.some.inj hur
      obtain ⟨i, hi, hold, hq, -⟩ := hulocal
      have := inv.chain.distinct i _ _ (hret.trans hi) (by omega) hold inv.head
      have := (List.getElem?_eq_some_iff.mp hq).1
      omega
    all_goals exact absurd hur (by simp)
  case consumer =>
    exact inv.consumer.frame (fun _ h => h) rfl rfl (fun _ => rfl) (List.prefix_append _ _)
      (List.prefix_append _ _)

/-- The link store makes the producer's node reachable for the consumer. -/
theorem Inv.store_link (inv : Inv policy g s) {t : ι} {v : α} {old p : Nat}
    (hl : s.producers t = .storeLink v old p) :
    Inv policy g { s with
      shared := { s.shared with heap := s.shared.heap.setNext old (some p) },
      producers := Function.update s.producers t .idle } := by
  have hlocal : ProducerInv policy g s.shared.heap (.storeLink v old p) := hl ▸ inv.producers t
  obtain ⟨i, hi, hold, hp, -, hnull⟩ := hlocal
  have hret := inv.retired
  constructor
  case chain =>
    refine inv.chain.link (hret.trans hi) hold hp fun a b hne hab => hab.update ?_
    rw [hl]
    exact fun heq => hne (Option.some.inj heq).symm
  case length => exact inv.length
  case taken => exact inv.taken
  case retired => exact hret
  case head => exact inv.head
  case tail => exact inv.tail
  case buffer => exact inv.buffer
  case values =>
    intro j r hj hr
    rw [Heap.valueOf_setNext]
    exact inv.values j r hj hr
  case producers =>
    refine producers_update (fun u hu => (inv.producers u).frame ?_ ?_ ?_
      (List.prefix_refl _) (List.prefix_refl _)) trivial
    · exact fun _ r hr => (Heap.get_setNext_ne_none _).mpr hr
    · intro r _ hheld
      have hne : r ≠ old := by
        rintro rfl
        exact hheld.2 i (hret.trans hi) hold
      exact ⟨⟨(Heap.get_setNext_ne_none _).mpr hheld.1, hheld.2⟩, Heap.valueOf_setNext _,
        Heap.nextOf_setNext_of_ne _ hne⟩
    · intro j r hr _ hj hnull
      -- another producer links from another node
      have hne : r ≠ old := by
        rintro rfl
        exact hu (inv.linkers hr (by rw [hl]; rfl))
      exact ⟨(Heap.nextOf_setNext_of_ne _ hne).trans hnull, hj⟩
  case holders => exact inv.holders.drop rfl
  case linkers => exact inv.linkers.drop rfl
  case consumer =>
    refine inv.consumer.frame (fun r hr => ?_) rfl rfl (fun _ => rfl) (List.prefix_refl _)
      (List.prefix_refl _)
    have hne : s.shared.tail ≠ old := by
      intro heq
      rw [heq, hnull] at hr
      exact absurd (Option.some.inj hr) (by simp)
    exact (Heap.nextOf_setNext_of_ne _ hne).trans hr

/-! ### All accesses -/

/-- What a step is to establish: the invariant with the extended history, and no fault. -/
def Keeps (policy : AllocPolicy) (g : History α) (r : State ι α × List (Event ι α)) : Prop :=
  Inv policy (r.2.foldl History.add g) r.1 ∧ .faulted ∉ r.2

/-- An access of `enqueue` keeps the invariant, and does not fault. -/
theorem Inv.enqueue_step (inv : Inv policy g s) {t : ι} {r : Shared α × Producer α × List (Event ι α)}
    (hok : policy = .buffered → NotStale s (.produce t))
    (h : MpscQueue.enqueue s.shared t (s.producers t) = some r) :
    Keeps policy g (s.produced t r) := by
  have hlocal := inv.producers t
  cases hl : s.producers t <;> rw [hl] at h hlocal <;> simp only [MpscQueue.enqueue] at h
  case idle => exact absurd h (by simp)
  case newNode v => cases h; exact ⟨inv.allocate hl, by simp [State.produced]⟩
  case loadBufferHead v =>
    cases h
    exact ⟨inv.local_producer ⟨hlocal, inv.buffer_live hlocal⟩ (by rw [hl]; rfl) rfl rfl,
      by simp [State.produced]⟩
  case compareTail v n =>
    obtain ⟨hb, p, rfl, hp⟩ := hlocal
    split at h <;> cases h
    · exact ⟨inv.local_producer ⟨hb, p, rfl, hp⟩ (by rw [hl]; rfl) rfl rfl, by simp [State.produced]⟩
    · exact ⟨inv.local_producer trivial (by rw [hl]; rfl) rfl rfl, by simp [State.produced]⟩
  case readNext v n =>
    obtain ⟨hb, p, rfl, hp⟩ := hlocal
    obtain ⟨x, hx⟩ := Option.ne_none_iff_exists'.mp hp
    simp only [Heap.nextOf_eq_some hx] at h
    cases h
    exact ⟨inv.local_producer hb (by rw [hl]; rfl) rfl rfl, by simp [State.produced]⟩
  case exchangeBufferHead v p n =>
    obtain rfl : policy = .buffered := hlocal
    split at h
    · rename_i hhead
      cases h
      have hns := hok rfl
      simp only [NotStale, hl, Producer.NotStale] at hns
      -- the buffer head has not been reused since it was read, so its link is the one read
      obtain ⟨hne, hnext⟩ := hns hhead
      exact ⟨inv.recycle hl hhead hne hnext, by simp [State.produced]⟩
    · cases h
      exact ⟨inv.local_producer ⟨rfl, inv.buffer_live rfl⟩ (by rw [hl]; rfl) rfl rfl,
        by simp [State.produced]⟩
  case writeValue v p =>
    obtain ⟨x, hx⟩ := Option.ne_none_iff_exists'.mp hlocal.1
    simp only [hx] at h
    cases h
    refine ⟨inv.write_held (by rw [hl]; rfl) rfl (fun r hr => ?_)
      (fun r hr => (Heap.get_setValue_ne_none _).mpr hr) ⟨?_, ?_⟩ (by rw [hl]; rfl) rfl,
      by simp [State.produced]⟩
    · exact ⟨Heap.nextOf_setValue _, Heap.valueOf_setValue_of_ne _ hr⟩
    · exact ⟨(Heap.get_setValue_ne_none _).mpr hlocal.1, hlocal.2⟩
    · exact Heap.valueOf_setValue_self _ hlocal.1
  case clearNext v p =>
    obtain ⟨hheld, hv⟩ := hlocal
    obtain ⟨x, hx⟩ := Option.ne_none_iff_exists'.mp hheld.1
    simp only [hx] at h
    cases h
    refine ⟨inv.write_held (by rw [hl]; rfl) rfl (fun r hr => ?_)
      (fun r hr => (Heap.get_setNext_ne_none _).mpr hr) ⟨?_, ?_, ?_⟩ (by rw [hl]; rfl) rfl,
      by simp [State.produced]⟩
    · exact ⟨Heap.nextOf_setNext_of_ne _ hr, Heap.valueOf_setNext _⟩
    · exact ⟨(Heap.get_setNext_ne_none _).mpr hheld.1, hheld.2⟩
    · exact (Heap.valueOf_setNext _).trans hv
    · exact Heap.nextOf_setNext_self _ hheld.1
  case exchangeHead v p => cases h; exact ⟨inv.exchange hl, by simp [State.produced]⟩
  case storeLink v old p =>
    obtain ⟨i, hi, hold, -⟩ := hlocal
    obtain ⟨x, hx⟩ := Option.ne_none_iff_exists'.mp (inv.live (inv.retired.trans hi) hold)
    simp only [hx] at h
    cases h
    exact ⟨inv.store_link hl, by simp [State.produced]⟩
  case faulted => exact hlocal.elim

end HopeThreading.MpscQueue
