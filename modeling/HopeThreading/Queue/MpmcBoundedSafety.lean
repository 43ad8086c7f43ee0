import HopeThreading.Queue.MpmcBoundedInv
import Mathlib.Data.List.Nodup

namespace HopeThreading.MpmcBoundedQueue

open Transition

/-!
# `mpmc_bounded_queue` — safety over all interleavings

The invariant of `MpmcBoundedInv.lean` is kept by every step (`Inv.step`), hence holds
along every run with fewer than `2 ^ 63` claims (`Inv.of_run`).  `Safe` reads off what a
user of the queue cares about: cells are accessed exclusively, positions are handed out
once on each side, and the consumer of a position returns the value its producer put in.
-/

variable {ι α : Type*}

/-! ### The observations of one more step -/

section

variable (tr es : List (Event ι α))

@[simp] theorem accepted_append : accepted (tr ++ es) = accepted tr ++ accepted es :=
  List.filterMap_append

@[simp] theorem enqueueClaims_append :
    enqueueClaims (tr ++ es) = enqueueClaims tr ++ enqueueClaims es :=
  List.filterMap_append

@[simp] theorem dequeueClaims_append :
    dequeueClaims (tr ++ es) = dequeueClaims tr ++ dequeueClaims es :=
  List.filterMap_append

@[simp] theorem returned_append : returned (tr ++ es) = returned tr ++ returned es :=
  List.filterMap_append

end

/-- Events that neither claim a position nor return a value. -/
def Quiet (es : List (Event ι α)) : Prop :=
  accepted es = [] ∧ enqueueClaims es = [] ∧ dequeueClaims es = [] ∧ returned es = []

/-- A step without events is quiet. -/
theorem quiet_nil : Quiet ([] : List (Event ι α)) := ⟨rfl, rfl, rfl, rfl⟩

/-- The return of an `enqueue` claims nothing. -/
theorem quiet_enqueueReturned (t : ι) (ok : Bool) :
    Quiet ([.enqueueReturned t ok] : List (Event ι α)) := ⟨rfl, rfl, rfl, rfl⟩

/-- A `dequeue` that finds the queue empty claims nothing. -/
theorem quiet_dequeueRefused (t : ι) : Quiet ([.dequeueRefused t] : List (Event ι α)) :=
  ⟨rfl, rfl, rfl, rfl⟩

/-! ### Steps -/

section

variable [DecidableEq ι] {c : Capacity} {tr : List (Event ι α)} {s : State ι α}

/-- The facts of all threads after thread `t` moved to `l` and changed the shared members
    to `q'` without touching a cell somebody else owns. -/
theorem Inv.threads_update (inv : Inv c tr s) {t : ι} {l : Local α} {q' : Shared α}
    {acc' : List α} (henq : s.shared.enqueuePos.toNat ≤ q'.enqueuePos.toNat)
    (hdeq : s.shared.dequeuePos.toNat ≤ q'.dequeuePos.toNat) (hacc : accepted tr <+: acc')
    (hseq : ∀ p, seqAt c s.shared p ≤ seqAt c q' p)
    (hown : ∀ u, u ≠ t → ∀ p, owned (s.threads u) = some p →
      seqAt c q' p = seqAt c s.shared p ∧ dataAt c q' p = dataAt c s.shared p)
    (hl : LocalInv c acc' q' l) : ∀ u, LocalInv c acc' q' (Function.update s.threads t l u) := by
  intro u
  by_cases hu : u = t
  · subst hu; rw [Function.update_self]; exact hl
  · rw [Function.update_of_ne hu]
    exact (inv.threads u).frame henq hdeq hacc hseq (hown u hu)

/-- The facts of all threads after the owner of the cell of `pos` overwrote it without
    lowering its sequence number. -/
theorem Inv.owner_update (inv : Inv c tr s) {t : ι} {l : Local α} {pos : BitVec 64}
    {x : Cell α} (ht : owned (s.threads t) = some pos.toNat)
    (hseq : seqAt c s.shared pos.toNat ≤ x.sequence.toNat)
    (hl : LocalInv c (accepted tr) (s.shared.setCell c pos x) l) :
    ∀ u, LocalInv c (accepted tr) (s.shared.setCell c pos x)
      (Function.update s.threads t l u) := by
  refine inv.threads_update le_rfl le_rfl (List.prefix_refl _) (fun p => ?_)
    (fun u hu p hp => ?_) hl
  · rw [seqAt_setCell]
    split
    · rename_i h; rw [seqAt_congr h]; exact hseq
    · exact le_rfl
  · have hne := inv.owned_cell_ne hu hp ht
    rw [seqAt_setCell, dataAt_setCell, if_neg hne, if_neg hne]
    exact ⟨rfl, rfl⟩

/-- A step without a claim and without a returned value keeps the invariant, given the
    facts about the cells and the threads. -/
theorem Inv.quiet (inv : Inv c tr s) {t : ι} {l : Local α} {q' : Shared α}
    {es : List (Event ι α)} (hes : Quiet es)
    (hE : q'.enqueuePos = s.shared.enqueuePos) (hD : q'.dequeuePos = s.shared.dequeuePos)
    (hshared : SharedInv c (accepted tr) q')
    (hthreads : ∀ u, LocalInv c (accepted tr) q' (Function.update s.threads t l u))
    (hp : Exclusive producing (Function.update s.threads t l))
    (hc : consuming l = consuming (s.threads t)) :
    Inv c (tr ++ es) (s.commit t (q', l, es)).1 := by
  obtain ⟨h1, h2, h3, h4⟩ := hes
  have hcons : ∀ u, consuming (Function.update s.threads t l u) = consuming (s.threads u) := by
    intro u
    by_cases hu : u = t
    · subst hu; rw [Function.update_self, hc]
    · rw [Function.update_of_ne hu]
  refine ⟨?_, ?_, hp, inv.consumers.keep hc, ?_, ?_, ?_, ?_, ?_⟩
  · simpa [State.commit, h1] using hshared
  · simpa [State.commit, h1] using hthreads
  · simpa [State.commit, h2, hE] using inv.enqueueOrder
  · simpa [State.commit, h3, hD] using inv.dequeueOrder
  · simpa [State.commit, h1, h4, hcons, hD] using inv.outputs
  · simpa [h4] using inv.outputOnce
  · simpa [State.commit, h4, hcons, hD] using inv.pending

/-- A step that changes nothing shared and leaves the thread without a cell, as it was. -/
theorem Inv.local_step (inv : Inv c tr s) {t : ι} {l : Local α} {es : List (Event ι α)}
    (hes : Quiet es) (hp : producing l = producing (s.threads t))
    (hc : consuming l = consuming (s.threads t))
    (hl : LocalInv c (accepted tr) s.shared l) :
    Inv c (tr ++ es) (s.commit t (s.shared, l, es)).1 :=
  inv.quiet hes rfl rfl inv.shared
    (inv.threads_update le_rfl le_rfl (List.prefix_refl _) (fun _ => le_rfl)
      (fun _ _ _ _ => ⟨rfl, rfl⟩) hl) (inv.producers.keep hp) hc

/-- A producer wins position `pos`. -/
theorem Inv.claim_enqueue (inv : Inv c tr s) {t : ι} {v : α} {pos : BitVec 64}
    (hl : s.threads t = .enqueue v (.exchange pos)) (hpos : s.shared.enqueuePos = pos)
    (hbound : (accepted tr).length + 1 < 2 ^ 63) :
    Inv c (tr ++ [Event.enqueueClaimed t pos v]) (s.commit t
      ({ s.shared with enqueuePos := pos + 1#64 }, .enqueue v (.writeData pos),
        [.enqueueClaimed t pos v])).1 := by
  have hseq : LocalInv c (accepted tr) s.shared (.enqueue v (.exchange pos)) :=
    hl ▸ inv.threads t
  have hE : s.shared.enqueuePos.toNat = pos.toNat := by rw [hpos]
  have hlen := inv.shared.enqueuePos
  have hsucc : (pos + 1#64).toNat = pos.toNat + 1 := toNat_succ (by omega)
  have hfree := inv.shared.free_of_claim hE hseq
  have hacc : accepted (tr ++ [Event.enqueueClaimed t pos v]) = accepted tr ++ [v] :=
    accepted_append _ _
  have hret : returned (tr ++ [Event.enqueueClaimed t pos v]) = returned tr := by
    rw [returned_append]; exact List.append_nil _
  have hcons : ∀ u, consuming (Function.update s.threads t (.enqueue v (.writeData pos)) u)
      = consuming (s.threads u) := by
    intro u
    by_cases hu : u = t
    · subst hu; rw [Function.update_self, hl]; rfl
    · rw [Function.update_of_ne hu]
  constructor
  case shared => rw [hacc]; exact inv.shared.claim_enqueue v hpos hseq hbound
  case threads =>
    rw [hacc]
    refine inv.threads_update ?_ le_rfl (List.prefix_append _ _) (fun _ => le_rfl)
      (fun _ _ _ _ => ⟨rfl, rfl⟩) ⟨?_, hfree, ?_⟩
    · show s.shared.enqueuePos.toNat ≤ (pos + 1#64).toNat
      omega
    · show pos.toNat < (pos + 1#64).toNat
      omega
    · rw [← hE, hlen]; exact getElem?_accept v
  case producers =>
    -- nobody else produces at a position that is only now claimed
    refine inv.producers.take fun k hk u _ hku => ?_
    obtain rfl : pos.toNat = k := by simpa [producing] using hk
    exact absurd ((inv.threads u).producing_lt hku) (by omega)
  case consumers => exact inv.consumers.keep (by rw [hl]; rfl)
  case enqueueOrder =>
    show enqueueClaims (tr ++ _) = List.range (pos + 1#64).toNat
    rw [hsucc, List.range_succ, enqueueClaims_append, inv.enqueueOrder, hE]; rfl
  case dequeueOrder =>
    rw [dequeueClaims_append, inv.dequeueOrder]; exact List.append_nil _
  case outputs =>
    intro p w hw
    rw [hret] at hw
    obtain ⟨h1, h2, h3⟩ := inv.outputs p w hw
    exact ⟨h1, hacc ▸ getElem?_mono (List.prefix_append _ _) h2, fun u => hcons u ▸ h3 u⟩
  case outputOnce => rw [hret]; exact inv.outputOnce
  case pending =>
    intro p hp
    rw [hret]
    exact (inv.pending p hp).imp_right fun ⟨u, hu⟩ => ⟨u, (hcons u).trans hu⟩

/-- A consumer wins position `pos`. -/
theorem Inv.claim_dequeue (inv : Inv c tr s) {t : ι} {pos : BitVec 64}
    (hl : s.threads t = .dequeue (.exchange pos)) (hpos : s.shared.dequeuePos = pos) :
    Inv c (tr ++ [Event.dequeueClaimed t pos]) (s.commit t
      ({ s.shared with dequeuePos := pos + 1#64 }, .dequeue (.readData pos),
        [.dequeueClaimed t pos])).1 := by
  have hlocal : LocalInv c (accepted tr) s.shared (.dequeue (.exchange pos)) :=
    hl ▸ inv.threads t
  have hD : s.shared.dequeuePos.toNat = pos.toNat := by rw [hpos]
  have hle := inv.shared.le
  have hb := inv.shared.bound
  have hsucc : (pos + 1#64).toNat = pos.toNat + 1 := toNat_succ (by omega)
  obtain ⟨hfull, -, hdata⟩ := inv.shared.full_of_claim hD hlocal.2
  have hacc : accepted (tr ++ [Event.dequeueClaimed t pos]) = accepted tr := by
    rw [accepted_append]; exact List.append_nil _
  have hret : returned (tr ++ [Event.dequeueClaimed t pos]) = returned tr := by
    rw [returned_append]; exact List.append_nil _
  have hidle : consuming (s.threads t) = none := by rw [hl]; rfl
  constructor
  case shared => rw [hacc]; exact inv.shared.claim_dequeue hpos hlocal.2
  case threads =>
    rw [hacc]
    refine inv.threads_update le_rfl ?_ (List.prefix_refl _) (fun _ => le_rfl)
      (fun _ _ _ _ => ⟨rfl, rfl⟩) ⟨?_, hfull, hdata⟩
    · show s.shared.dequeuePos.toNat ≤ (pos + 1#64).toNat
      omega
    · show pos.toNat < (pos + 1#64).toNat
      omega
  case producers => exact inv.producers.keep (by rw [hl]; rfl)
  case consumers =>
    refine inv.consumers.take fun k hk u _ hku => ?_
    -- whoever has a position claimed it before
    obtain rfl : pos.toNat = k := by simpa [consuming] using hk
    exact absurd ((inv.threads u).consuming_lt hku) (by omega)
  case enqueueOrder =>
    rw [enqueueClaims_append, inv.enqueueOrder]; exact List.append_nil _
  case dequeueOrder =>
    show dequeueClaims (tr ++ _) = List.range (pos + 1#64).toNat
    rw [hsucc, List.range_succ, dequeueClaims_append, inv.dequeueOrder, hD]; rfl
  case outputs =>
    intro p w hw
    rw [hret] at hw
    obtain ⟨h1, h2, h3⟩ := inv.outputs p w hw
    refine ⟨?_, hacc ▸ h2, fun u hu => ?_⟩
    · show p < (pos + 1#64).toNat
      omega
    · by_cases hut : u = t
      · subst hut
        have hp : some pos.toNat = some p := by
          simpa only [State.commit, Function.update_self, consuming] using hu
        have := Option.some.inj hp
        omega
      · refine h3 u ?_
        simpa only [State.commit, Function.update_of_ne hut] using hu
  case outputOnce => rw [hret]; exact inv.outputOnce
  case pending =>
    intro p hp
    rw [hret]
    have hp' : p < (pos + 1#64).toNat := hp
    rcases Nat.lt_or_ge p pos.toNat with hlt | hge
    · refine (inv.pending p (by omega)).imp_right fun ⟨u, hu⟩ => ⟨u, ?_⟩
      have hut : u ≠ t := by rintro rfl; rw [hidle] at hu; exact absurd hu (by simp)
      simpa only [State.commit, Function.update_of_ne hut] using hu
    · -- the position just claimed is with its consumer
      obtain rfl : p = pos.toNat := by omega
      exact .inr ⟨t, by simp only [State.commit, Function.update_self, consuming]⟩

/-- The consumer of `pos` releases its cell and returns. -/
theorem Inv.release (inv : Inv c tr s) {t : ι} {pos : BitVec 64} {out : α}
    (hl : s.threads t = .dequeue (.storeSequence pos out)) :
    Inv c (tr ++ [Event.dequeueReturned t pos out]) (s.commit t
      (s.shared.setCell c pos { s.shared.cell c pos with sequence := pos + c.mask + 1#64 },
        .idle, [.dequeueReturned t pos out])).1 := by
  have hlocal : LocalInv c (accepted tr) s.shared (.dequeue (.storeSequence pos out)) :=
    hl ▸ inv.threads t
  obtain ⟨hlt, hseq, hout⟩ := hlocal
  have hle := inv.shared.le
  have hb := inv.shared.bound
  have hpos := c.toNat_pos
  have hlap : (pos + c.mask + 1#64).toNat = pos.toNat + c.toNat := toNat_add_lap (by omega)
  have hacc : accepted (tr ++ [Event.dequeueReturned t pos out]) = accepted tr := by
    rw [accepted_append]; exact List.append_nil _
  have hret : returned (tr ++ [Event.dequeueReturned t pos out]) =
      returned tr ++ [(pos.toNat, out)] := returned_append _ _
  have hown : consuming (s.threads t) = some pos.toNat := by rw [hl]; rfl
  have hothers : ∀ u, consuming (Function.update s.threads t .idle u) ≠ some pos.toNat := by
    intro u hu
    by_cases hut : u = t
    · subst hut; rw [Function.update_self] at hu; exact absurd hu (by simp [consuming])
    · rw [Function.update_of_ne hut] at hu
      exact hut (inv.consumers hu hown)
  constructor
  case shared => rw [hacc]; exact inv.shared.release hlt hseq
  case threads =>
    rw [hacc]
    refine inv.owner_update (by rw [hl]; rfl) ?_ trivial
    show seqAt c s.shared pos.toNat ≤ (pos + c.mask + 1#64).toNat
    omega
  case producers => exact inv.producers.keep (by rw [hl]; rfl)
  case consumers => exact inv.consumers.drop rfl
  case enqueueOrder =>
    rw [enqueueClaims_append, inv.enqueueOrder]; exact List.append_nil _
  case dequeueOrder =>
    rw [dequeueClaims_append, inv.dequeueOrder]; exact List.append_nil _
  case outputs =>
    intro p w hw
    rw [hret, List.mem_append, List.mem_singleton] at hw
    rw [hacc]
    rcases hw with hw | hw
    · obtain ⟨h1, h2, h3⟩ := inv.outputs p w hw
      refine ⟨h1, h2, fun u hu => ?_⟩
      by_cases hut : u = t
      · subst hut
        exact absurd hu (by simp [State.commit, consuming])
      · refine h3 u ?_
        simpa only [State.commit, Function.update_of_ne hut] using hu
    · -- the value just returned was the one accepted at `pos`
      obtain ⟨rfl, rfl⟩ := Prod.mk.inj hw
      exact ⟨hlt, hout, hothers⟩
  case outputOnce =>
    rw [hret, List.map_append, List.map_singleton]
    refine List.Nodup.append inv.outputOnce (List.nodup_singleton _) ?_
    rw [List.disjoint_singleton]
    -- a position that was returned has no consumer any more
    rintro hmem
    obtain ⟨⟨p, w⟩, hw, rfl⟩ := List.mem_map.mp hmem
    exact (inv.outputs _ w hw).2.2 t hown
  case pending =>
    intro p hp
    rw [hret]
    rcases inv.pending p hp with ⟨w, hw⟩ | ⟨u, hu⟩
    · exact .inl ⟨w, List.mem_append_left _ hw⟩
    · by_cases hut : u = t
      · subst hut
        obtain rfl : pos.toNat = p := Option.some.inj (hown.symm.trans hu)
        exact .inl ⟨out, by simp⟩
      · exact .inr ⟨u, by simpa only [State.commit, Function.update_of_ne hut] using hu⟩

/-- `dif == 0` means that the loaded sequence is the expected one. -/
theorem eq_of_dif_eq_zero {x y : BitVec 64} (h : dif x y = 0) : x = y := by
  have hz : x - y = 0#64 := by
    apply BitVec.eq_of_toInt_eq
    rw [BitVec.toInt_zero]; exact h
  rw [← BitVec.sub_add_cancel x y, hz, BitVec.zero_add]

/-- An access of `try_enqueue` keeps the invariant. -/
theorem Inv.tryEnqueue_step (inv : Inv c tr s) {t : ι} {v : α} {pc : EnqueuePc}
    (hl : s.threads t = .enqueue v pc)
    (hb : (accepted (tr ++ (tryEnqueue c s.shared t v pc).2.2)).length < 2 ^ 63) :
    Inv c (tr ++ (tryEnqueue c s.shared t v pc).2.2)
      (s.commit t (tryEnqueue c s.shared t v pc)).1 := by
  have hlocal := inv.threads t
  rw [hl] at hlocal
  cases pc with
  | loadPos => exact inv.local_step quiet_nil (by rw [hl]; rfl) (by rw [hl]; rfl) trivial
  | loadSequence pos =>
    simp only [tryEnqueue]
    split
    · rename_i hzero
      have hseq := congrArg BitVec.toNat (eq_of_dif_eq_zero hzero)
      rw [cell_sequence] at hseq
      -- the sequence number may only grow from here
      exact inv.local_step quiet_nil (by rw [hl]; rfl) (by rw [hl]; rfl) hseq.ge
    · split
      · exact inv.local_step (quiet_enqueueReturned t false) (by rw [hl]; rfl) (by rw [hl]; rfl)
          trivial
      · exact inv.local_step quiet_nil (by rw [hl]; rfl) (by rw [hl]; rfl) trivial
  | exchange pos =>
    simp only [tryEnqueue] at hb ⊢
    split
    · rename_i hpos
      -- the exchange succeeds and accepts the value
      rw [if_pos hpos, accepted_append, List.length_append] at hb
      exact inv.claim_enqueue hl hpos hb
    · exact inv.local_step quiet_nil (by rw [hl]; rfl) (by rw [hl]; rfl) trivial
  | writeData pos =>
    obtain ⟨hlt, hseq, hv⟩ := hlocal
    refine inv.quiet quiet_nil rfl rfl (inv.shared.set_data v (.inl hseq))
      (inv.owner_update (by rw [hl]; rfl) ?_ ⟨hlt, ?_, ?_⟩) (inv.producers.keep (by rw [hl]; rfl))
      (by rw [hl]; rfl)
    · rw [cell_sequence]
    · rw [seqAt_setCell, if_pos rfl, cell_sequence]; exact hseq
    · rw [dataAt_setCell, if_pos rfl]; exact hv
  | storeSequence pos =>
    obtain ⟨hlt, hseq, hv⟩ := hlocal
    have hbound := inv.shared.bound
    refine inv.quiet (quiet_enqueueReturned t true) rfl rfl (inv.shared.publish hlt hseq hv)
      (inv.owner_update (by rw [hl]; rfl) ?_ trivial) (inv.producers.drop rfl) (by rw [hl]; rfl)
    show seqAt c s.shared pos.toNat ≤ (pos + 1#64).toNat
    rw [toNat_succ (by omega)]
    omega

/-- An access of `try_dequeue` keeps the invariant. -/
theorem Inv.tryDequeue_step (inv : Inv c tr s) {moved : α → α} {t : ι} {pc : DequeuePc α}
    (hl : s.threads t = .dequeue pc) :
    Inv c (tr ++ (tryDequeue c moved s.shared t pc).2.2)
      (s.commit t (tryDequeue c moved s.shared t pc)).1 := by
  have hlocal := inv.threads t
  rw [hl] at hlocal
  cases pc with
  | loadPos =>
    exact inv.local_step quiet_nil (by rw [hl]; rfl) (by rw [hl]; rfl)
      (le_refl s.shared.dequeuePos.toNat)
  | loadSequence pos =>
    -- the loaded position is not past the current one
    have hpos : pos.toNat ≤ s.shared.dequeuePos.toNat := hlocal
    have hle := inv.shared.le
    have hbound := inv.shared.bound
    simp only [tryDequeue]
    split
    · rename_i hzero
      have hseq := congrArg BitVec.toNat (eq_of_dif_eq_zero hzero)
      rw [cell_sequence, toNat_succ (by omega)] at hseq
      exact inv.local_step quiet_nil (by rw [hl]; rfl) (by rw [hl]; rfl) ⟨hpos, hseq.ge⟩
    · split
      · exact inv.local_step (quiet_dequeueRefused t) (by rw [hl]; rfl) (by rw [hl]; rfl) trivial
      · exact inv.local_step quiet_nil (by rw [hl]; rfl) (by rw [hl]; rfl) trivial
  | exchange pos =>
    simp only [tryDequeue]
    split
    · rename_i hpos
      exact inv.claim_dequeue hl hpos
    · exact inv.local_step quiet_nil (by rw [hl]; rfl) (by rw [hl]; rfl)
        (le_refl s.shared.dequeuePos.toNat)
  | readData pos =>
    obtain ⟨hlt, hseq, hv⟩ := hlocal
    refine inv.quiet quiet_nil rfl rfl (inv.shared.set_data _ (.inr ⟨hseq, hlt⟩))
      (inv.owner_update (by rw [hl]; rfl) ?_ ⟨hlt, ?_, ?_⟩) (inv.producers.keep (by rw [hl]; rfl))
      (by rw [hl]; rfl)
    · rw [cell_sequence]
    · rw [seqAt_setCell, if_pos rfl, cell_sequence]; exact hseq
    · rw [cell_data]; exact hv
  | storeSequence pos out => exact inv.release hl

/-- **Step lemma.** Every step keeps the invariant while fewer than `2 ^ 63` positions are
    claimed. -/
theorem Inv.step (inv : Inv c tr s) {moved : α → α} {s' : State ι α} {a : Action ι α}
    {es : List (Event ι α)} (h : next c moved s a = some (s', es))
    (hb : (accepted (tr ++ es)).length < 2 ^ 63) : Inv c (tr ++ es) s' := by
  rcases next_cases h with ⟨t, v, hl, he⟩ | ⟨t, hl, he⟩ | ⟨t, v, pc, hl, he⟩ | ⟨t, pc, hl, he⟩
  all_goals
    obtain ⟨rfl, rfl⟩ := Prod.mk.inj he
  · exact inv.local_step quiet_nil (by rw [hl]; rfl) (by rw [hl]; rfl) trivial
  · exact inv.local_step quiet_nil (by rw [hl]; rfl) (by rw [hl]; rfl) trivial
  · exact inv.tryEnqueue_step hl hb
  · exact inv.tryDequeue_step hl

end

/-! ### Runs -/

section

variable [DecidableEq ι] {c : Capacity} {moved : α → α} {raw : Nat → α}

/-- The freshly constructed queue satisfies the invariant. -/
theorem inv_init : Inv c [] (machine (ι := ι) c moved raw).init := by
  have hN := toNat_le c
  have hseq : ∀ p, seqAt c (Shared.init raw) p = p % c.toNat := by
    intro p
    have hlt := c.mod_lt p
    show (BitVec.ofNat 64 (p % c.toNat)).toNat = p % c.toNat
    rw [BitVec.toNat_ofNat]
    omega
  refine ⟨⟨rfl, le_rfl, by simp [machine, Shared.init], fun p => ?_⟩, fun _ => trivial,
    fun _ _ _ h => absurd h (by simp [machine, producing]),
    fun _ _ _ h => absurd h (by simp [machine, consuming]), rfl, rfl,
    fun _ _ h => absurd h (by simp [returned]), by simp [returned],
    fun p hp => absurd hp (by simp [machine, Shared.init])⟩
  have hlt := c.mod_lt p
  refine ⟨p % c.toNat, Nat.mod_mod _ _, ?_, ?_, .inl ⟨?_, ?_⟩⟩
  · show p % c.toNat < (0#64).toNat + c.toNat
    simpa using hlt
  · exact Nat.zero_le _
  · show seqAt c (Shared.init raw) _ = _
    rw [hseq, Nat.mod_mod]
  · exact Nat.zero_le _

/-- **Run lemma.** The invariant holds along every run with fewer than `2 ^ 63` claims. -/
theorem Inv.of_run {tr : List (Event ι α)} {s : State ι α}
    (run : (machine c moved raw).Run tr s) (hb : (accepted tr).length < 2 ^ 63) : Inv c tr s := by
  revert hb
  refine Machine.RunIf.invariant (I := fun tr s => (accepted tr).length < 2 ^ 63 → Inv c tr s)
    (fun _ => inv_init) ?_ run
  intro tr es s s' a _ ih _ step hb
  refine (ih ?_).step step hb
  rw [accepted_append, List.length_append] at hb
  omega

end

/-- The value handed out for position `p`, once its consumer has returned. -/
def returnedAt (tr : List (Event ι α)) (p : Nat) : Option α :=
  ((returned tr).find? fun r => r.1 == p).map Prod.snd

/-- What was returned for a position is among what was returned. -/
theorem mem_of_returnedAt {tr : List (Event ι α)} {p : Nat} {v : α}
    (h : returnedAt tr p = some v) : (p, v) ∈ returned tr := by
  obtain ⟨⟨r, w⟩, hfind, hw⟩ := Option.map_eq_some_iff.mp h
  obtain rfl : r = p := by simpa using List.find?_some hfind
  obtain rfl : w = v := hw
  exact List.mem_of_find?_eq_some hfind

/-- What was returned is found at its position. -/
theorem returnedAt_ne_none {tr : List (Event ι α)} {p : Nat} {v : α}
    (h : (p, v) ∈ returned tr) : returnedAt tr p ≠ none := by
  rw [returnedAt, Ne, Option.map_eq_none_iff, List.find?_eq_none]
  exact fun hall => absurd (hall _ h) (by simp)

/-- What a user of the queue relies on, in a state reached with the events `tr`. -/
structure Safe (c : Capacity) (tr : List (Event ι α)) (s : State ι α) : Prop where
  /-- Two threads between their compare-exchange and their sequence store own different
      cells. -/
  exclusive : ∀ t u p r, t ≠ u → owned (s.threads t) = some p → owned (s.threads u) = some r →
    p % c.toNat ≠ r % c.toNat
  /-- Producers claim the positions `0, 1, 2, …`, each once and in this order. -/
  producers : enqueueClaims tr = List.range (accepted tr).length
  /-- So do consumers, and they claim only positions claimed by a producer before. -/
  consumers : ∃ n, n ≤ (accepted tr).length ∧ dequeueClaims tr = List.range n
  /-- The consumer of position `p` returns the value accepted at `p`. -/
  values : ∀ p v, (p, v) ∈ returned tr → p ∈ dequeueClaims tr ∧ (accepted tr)[p]? = some v
  /-- No position is returned twice. -/
  once : ((returned tr).map Prod.fst).Nodup
  /-- A claimed position has been returned, or its consumer is still in its call. -/
  noneSkipped : ∀ p ∈ dequeueClaims tr,
    (∃ v, (p, v) ∈ returned tr) ∨ ∃ t, consuming (s.threads t) = some p
  /-- With no consumer inside its call, the values handed out in the order of the claimed
      positions are the first accepted values. -/
  inOrder : (∀ t, consuming (s.threads t) = none) →
    (dequeueClaims tr).map (returnedAt tr) =
      ((accepted tr).take (dequeueClaims tr).length).map some

/-- **Safety.** Over every interleaving of any number of producers and consumers with fewer
    than `2 ^ 63` claimed positions, cells are accessed exclusively and the values handed
    out are, by position, the values accepted. -/
theorem safe_of_run [DecidableEq ι] (c : Capacity) (moved : α → α) (raw : Nat → α)
    {tr : List (Event ι α)} {s : State ι α} (run : (machine c moved raw).Run tr s)
    (hb : (accepted tr).length < 2 ^ 63) : Safe c tr s := by
  have inv := Inv.of_run run hb
  have hD : ∀ p, p ∈ dequeueClaims tr ↔ p < s.shared.dequeuePos.toNat := by
    intro p; rw [inv.dequeueOrder, List.mem_range]
  refine ⟨fun t u p r htu ht hu => inv.owned_cell_ne htu ht hu, ?_, ?_, ?_, inv.outputOnce, ?_, ?_⟩
  · rw [inv.enqueueOrder, inv.shared.enqueuePos]
  · exact ⟨_, inv.shared.enqueuePos ▸ inv.shared.le, inv.dequeueOrder⟩
  · intro p v hpv
    obtain ⟨hlt, hv, -⟩ := inv.outputs p v hpv
    exact ⟨(hD p).mpr hlt, hv⟩
  · intro p hp
    exact inv.pending p ((hD p).mp hp)
  · intro hquiet
    have hlen := inv.shared.enqueuePos ▸ inv.shared.le
    rw [inv.dequeueOrder, List.length_range]
    refine List.ext_getElem (by simp; omega) fun p h1 h2 => ?_
    have hp : p < s.shared.dequeuePos.toNat := by simpa using h1
    obtain ⟨v, hv⟩ := (inv.pending p hp).resolve_right fun ⟨t, ht⟩ => by simp [hquiet t] at ht
    obtain ⟨w, hw⟩ := Option.ne_none_iff_exists'.mp (returnedAt_ne_none hv)
    obtain ⟨hi, hget⟩ := List.getElem?_eq_some_iff.mp (inv.outputs p w (mem_of_returnedAt hw)).2.1
    simp [hw, hget]

/-- Two threads exchange one value through a queue of two cells. -/
theorem safe_of_run_two : ∃ tr s,
    (machine (ι := Bool) (α := Nat) ⟨⟨1, by decide⟩, by decide⟩ id id).Run tr s ∧
      accepted tr = [7] ∧ returned tr = [(0, 7)] ∧ Safe ⟨⟨1, by decide⟩, by decide⟩ tr s := by
  obtain ⟨tr, s, run, hacc, hret⟩ := Machine.exists_run
    (M := machine (ι := Bool) (α := Nat) ⟨⟨1, by decide⟩, by decide⟩ id id)
    (P := fun tr _ => accepted tr = [7] ∧ returned tr = [(0, 7)])
    ([Action.tryEnqueue true 7, Action.tryDequeue false] ++ List.replicate 5 (Action.step true) ++
      List.replicate 5 (Action.step false)) (by decide +kernel)
  exact ⟨tr, s, run, hacc, hret, safe_of_run _ _ _ run (by rw [hacc]; decide)⟩

end HopeThreading.MpmcBoundedQueue
