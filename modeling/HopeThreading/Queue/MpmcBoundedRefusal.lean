import HopeThreading.Queue.MpmcBoundedSafety

namespace HopeThreading.MpmcBoundedQueue

open Transition

/-!
# `mpmc_bounded_queue` — a refusal has a reason

A call refuses because the sequence of a cell is below the position it has read.  The two were
read at different times, but sequences only grow (`Inv.seqAt_step`): already when the call
obtained the position, the sequence was too low.  At that instant, then, the cell was still in
use a lap earlier, or nothing was published in it (`refused_of_exec`).

A position is *published* or *released* with the closing store of the thread that has claimed
it, and from then on the sequence of its cell says so (`HandedOver`).
-/

variable {ι α : Type*}

/-! ### Handing a position over -/

/-- A position below `n` was claimed, and its thread has done its closing store. -/
def Handed (own : Local α → Option Nat) (n : BitVec 64) (threads : ι → Local α) (p : Nat) : Prop :=
  p < n.toNat ∧ ∀ t, own (threads t) ≠ some p

/-- The producer of `p` has published the value. -/
def Published (s : State ι α) : Nat → Prop := Handed producing s.shared.enqueuePos s.threads

/-- The consumer of `p` has released the cell. -/
def Released (s : State ι α) : Nat → Prop := Handed consuming s.shared.dequeuePos s.threads

/-- What the sequence of a cell says about the positions that were handed over. -/
structure HandedOver (c : Capacity) (s : State ι α) : Prop where
  published : ∀ p, Published s p → p + 1 ≤ seqAt c s.shared p
  released : ∀ p, Released s p → p + c.toNat ≤ seqAt c s.shared p

section

variable [DecidableEq ι] {own : Local α → Option Nat} {n n' : BitVec 64} {threads : ι → Local α}
  {t : ι} {l : Local α} {p : Nat}

/-- A move hands over what was handed over, or a position that is only now claimed, or the one
    its thread owned. -/
theorem Handed.update (h : Handed own n' (Function.update threads t l) p) :
    own l ≠ some p ∧
      (Handed own n threads p ∨ n.toNat ≤ p ∨ own (threads t) = some p) := by
  have hself := h.2 t
  rw [Function.update_self] at hself
  refine ⟨hself, ?_⟩
  by_cases hown : own (threads t) = some p
  · exact .inr (.inr hown)
  · rcases Nat.lt_or_ge p n.toNat with hlt | hge
    · refine .inl ⟨hlt, fun u hu => ?_⟩
      by_cases hut : u = t
      · exact hown (hut ▸ hu)
      · refine h.2 u ?_
        rw [Function.update_of_ne hut]
        exact hu
    · exact .inr (.inl hge)

/-- A move that keeps the position hands over nothing. -/
theorem Handed.of_keep (h : Handed own n (Function.update threads t l) p)
    (hkeep : own l = own (threads t)) : Handed own n threads p := by
  obtain ⟨hself, h' | hge | hown⟩ := h.update
  · exact h'
  · exact absurd h.1 (by omega)
  · exact absurd (hkeep.trans hown) hself

/-- The claim of a position does not hand it over. -/
theorem Handed.of_claim {pos : BitVec 64}
    (h : Handed own (pos + 1#64) (Function.update threads t l) p) (hl : own l = some pos.toNat)
    (hidle : own (threads t) = none) : Handed own pos threads p := by
  obtain ⟨hself, h' | hge | hown⟩ := h.update (n := pos)
  · exact h'
  · have hlt := h.1
    rw [BitVec.toNat_add, BitVec.toNat_ofNat] at hlt
    have hp : pos.toNat = p := by omega
    exact absurd (hp ▸ hl) hself
  · exact absurd (hidle.symm.trans hown) (by simp)

/-- The closing store hands over one position. -/
theorem Handed.of_close {pos : BitVec 64} (h : Handed own n (Function.update threads t l) p)
    (hown : own (threads t) = some pos.toNat) : Handed own n threads p ∨ p = pos.toNat := by
  obtain ⟨-, h' | hge | hp⟩ := h.update
  · exact .inl h'
  · exact absurd h.1 (by omega)
  · exact .inr (Option.some.inj (hp.symm.trans hown))

end

section

variable [DecidableEq ι] {c : Capacity} {tr : List (Event ι α)} {s : State ι α}

/-- **Sequences only grow.** -/
theorem Inv.seqAt_step (inv : Inv c tr s) {moved : α → α} {s' : State ι α} {a : Action ι α}
    {es : List (Event ι α)} (h : next c moved s a = some (s', es)) (p : Nat) :
    seqAt c s.shared p ≤ seqAt c s'.shared p := by
  have hbound := inv.shared.bound
  have hle := inv.shared.le
  have hN := c.toNat_pos
  -- a write to a cell raises the number in it, or leaves it
  have hset (pos : BitVec 64) (x : Cell α) (hx : seqAt c s.shared pos.toNat ≤ x.sequence.toNat) :
      seqAt c s.shared p ≤ seqAt c (s.shared.setCell c pos x) p := by
    rw [seqAt_setCell]
    split
    · rename_i hcell
      rw [seqAt_congr hcell]
      exact hx
    · exact le_rfl
  rcases next_cases h with ⟨t, v, hl, he⟩ | ⟨t, hl, he⟩ | ⟨t, v, pc, hl, he⟩ | ⟨t, pc, hl, he⟩
  all_goals
    obtain ⟨rfl, rfl⟩ := Prod.mk.inj he
  · exact le_rfl
  · exact le_rfl
  · have hlocal := inv.threads t
    rw [hl] at hlocal
    cases pc with
    | loadPos => exact le_rfl
    | loadSequence pos =>
      simp only [tryEnqueue]
      split
      · exact le_rfl
      · split <;> exact le_rfl
    | exchange pos =>
      simp only [tryEnqueue]
      split <;> exact le_rfl
    | writeData pos => exact hset pos _ (cell_sequence pos).ge
    | storeSequence pos =>
      -- the producer publishes the value: the number goes up by one
      obtain ⟨hlt, hseq, -⟩ := hlocal
      apply hset
      show seqAt c s.shared pos.toNat ≤ (pos + 1#64).toNat
      rw [toNat_succ (by omega)]
      omega
  · have hlocal := inv.threads t
    rw [hl] at hlocal
    cases pc with
    | loadPos => exact le_rfl
    | loadSequence pos =>
      simp only [tryDequeue]
      split
      · exact le_rfl
      · split <;> exact le_rfl
    | exchange pos =>
      simp only [tryDequeue]
      split <;> exact le_rfl
    | readData pos => exact hset pos _ (cell_sequence pos).ge
    | storeSequence pos out =>
      -- the consumer frees the cell: the number goes up to the next lap
      obtain ⟨hlt, hseq, -⟩ := hlocal
      apply hset
      show seqAt c s.shared pos.toNat ≤ (pos + c.mask + 1#64).toNat
      rw [toNat_add_lap (by omega)]
      omega

/-- A step hands over a position only with the sequence that says so. -/
theorem Inv.handed_step (inv : Inv c tr s) {moved : α → α} {s' : State ι α} {a : Action ι α}
    {es : List (Event ι α)} (h : next c moved s a = some (s', es)) (p : Nat) :
    (Published s' p → Published s p ∨ p + 1 ≤ seqAt c s'.shared p) ∧
      (Released s' p → Released s p ∨ p + c.toNat ≤ seqAt c s'.shared p) := by
  have hbound := inv.shared.bound
  have hle := inv.shared.le
  rcases next_cases h with ⟨t, v, hl, he⟩ | ⟨t, hl, he⟩ | ⟨t, v, pc, hl, he⟩ | ⟨t, pc, hl, he⟩
  all_goals
    obtain ⟨rfl, rfl⟩ := Prod.mk.inj he
    -- a move that changes neither what its thread owns nor the positions
    have hkeep (q : Shared α) (l : Local α) (es : List (Event ι α))
        (hE : q.enqueuePos = s.shared.enqueuePos) (hD : q.dequeuePos = s.shared.dequeuePos)
        (hp : producing l = producing (s.threads t)) (hc : consuming l = consuming (s.threads t)) :
        (Published (s.commit t (q, l, es)).1 p → Published s p ∨ p + 1 ≤ seqAt c q p) ∧
          (Released (s.commit t (q, l, es)).1 p → Released s p ∨ p + c.toNat ≤ seqAt c q p) :=
      ⟨fun h => .inl (Handed.of_keep (hE ▸ h) hp), fun h => .inl (Handed.of_keep (hD ▸ h) hc)⟩
  · exact hkeep _ _ _ rfl rfl (by rw [hl]; rfl) (by rw [hl]; rfl)
  · exact hkeep _ _ _ rfl rfl (by rw [hl]; rfl) (by rw [hl]; rfl)
  · have hlocal := inv.threads t
    rw [hl] at hlocal
    cases pc with
    | loadPos => exact hkeep _ _ _ rfl rfl (by rw [hl]; rfl) (by rw [hl]; rfl)
    | loadSequence pos =>
      simp only [tryEnqueue]
      split
      · exact hkeep _ _ _ rfl rfl (by rw [hl]; rfl) (by rw [hl]; rfl)
      · split <;> exact hkeep _ _ _ rfl rfl (by rw [hl]; rfl) (by rw [hl]; rfl)
    | exchange pos =>
      simp only [tryEnqueue]
      split
      · rename_i hpos
        -- the position that is only now claimed has a producer
        refine ⟨fun hpub => .inl ?_, fun hrel => .inl (Handed.of_keep hrel (by rw [hl]; rfl))⟩
        unfold Published
        rw [hpos]
        exact Handed.of_claim hpub rfl (by rw [hl]; rfl)
      · exact hkeep _ _ _ rfl rfl (by rw [hl]; rfl) (by rw [hl]; rfl)
    | writeData pos => exact hkeep _ _ _ rfl rfl (by rw [hl]; rfl) (by rw [hl]; rfl)
    | storeSequence pos =>
      obtain ⟨hlt, hseq, -⟩ := hlocal
      refine ⟨fun hpub => ?_, fun hrel => .inl (Handed.of_keep hrel (by rw [hl]; rfl))⟩
      have hown : producing (s.threads t) = some pos.toNat := by rw [hl]; rfl
      rcases Handed.of_close hpub hown with hold | rfl
      · exact .inl hold
      · right
        show pos.toNat + 1 ≤ seqAt c (s.shared.setCell c pos _) pos.toNat
        rw [seqAt_setCell, if_pos rfl, toNat_succ (by omega)]
  · have hlocal := inv.threads t
    rw [hl] at hlocal
    cases pc with
    | loadPos => exact hkeep _ _ _ rfl rfl (by rw [hl]; rfl) (by rw [hl]; rfl)
    | loadSequence pos =>
      simp only [tryDequeue]
      split
      · exact hkeep _ _ _ rfl rfl (by rw [hl]; rfl) (by rw [hl]; rfl)
      · split <;> exact hkeep _ _ _ rfl rfl (by rw [hl]; rfl) (by rw [hl]; rfl)
    | exchange pos =>
      simp only [tryDequeue]
      split
      · rename_i hpos
        refine ⟨fun hpub => .inl (Handed.of_keep hpub (by rw [hl]; rfl)), fun hrel => .inl ?_⟩
        unfold Released
        rw [hpos]
        exact Handed.of_claim hrel rfl (by rw [hl]; rfl)
      · exact hkeep _ _ _ rfl rfl (by rw [hl]; rfl) (by rw [hl]; rfl)
    | readData pos => exact hkeep _ _ _ rfl rfl (by rw [hl]; rfl) (by rw [hl]; rfl)
    | storeSequence pos out =>
      obtain ⟨hlt, hseq, -⟩ := hlocal
      refine ⟨fun hpub => .inl (Handed.of_keep hpub (by rw [hl]; rfl)), fun hrel => ?_⟩
      have hown : consuming (s.threads t) = some pos.toNat := by rw [hl]; rfl
      rcases Handed.of_close hrel hown with hold | rfl
      · exact .inl hold
      · right
        show pos.toNat + c.toNat ≤ seqAt c (s.shared.setCell c pos _) pos.toNat
        rw [seqAt_setCell, if_pos rfl, toNat_add_lap (by omega)]

/-- **Run lemma.** -/
theorem HandedOver.of_run {moved : α → α} {raw : Nat → α}
    (run : (machine c moved raw).Run tr s) (hb : (accepted tr).length < 2 ^ 63) :
    HandedOver c s := by
  revert hb
  refine Machine.RunIf.invariant (I := fun tr s => (accepted tr).length < 2 ^ 63 → HandedOver c s)
    (fun _ => ?_) ?_ run
  · exact ⟨fun p hp => absurd hp.1 (Nat.not_lt_zero p), fun p hp => absurd hp.1 (Nat.not_lt_zero p)⟩
  · intro tr es s s' a run ih _ step hb
    rw [accepted_append, List.length_append] at hb
    have inv := Inv.of_run run (by omega)
    have hand := ih (by omega)
    refine ⟨fun p hp => ?_, fun p hp => ?_⟩
    · rcases (inv.handed_step step p).1 hp with hold | hnew
      · exact le_trans (hand.published p hold) (inv.seqAt_step step p)
      · exact hnew
    · rcases (inv.handed_step step p).2 hp with hold | hnew
      · exact le_trans (hand.released p hold) (inv.seqAt_step step p)
      · exact hnew

end

/-! ### The instant of the refusal -/

/-- The thread that acts. -/
def Action.thread : Action ι α → ι
  | .tryEnqueue t _ | .tryDequeue t | .step t => t

/-- No position has left the range of `intptr_t`, in which `dif` is computed. -/
structure NoWrap (c : Capacity) (tr : List (Event ι α)) (s : State ι α) : Prop where
  claims : (accepted tr).length < 2 ^ 63
  sequences : ∀ p, seqAt c s.shared p < 2 ^ 63

/-- The ring is full for a producer that has just obtained `pos`: its cell still belongs to the
    position a lap before. -/
structure FullAt (c : Capacity) (pos : BitVec 64) (s : State ι α) : Prop where
  current : s.shared.enqueuePos = pos
  lap : c.toNat ≤ pos.toNat
  claimed : pos.toNat - c.toNat < s.shared.enqueuePos.toNat
  notReleased : ¬ Released s (pos.toNat - c.toNat)

/-- There is nothing for a consumer that has just obtained `pos`. -/
structure EmptyAt (pos : BitVec 64) (s : State ι α) : Prop where
  current : s.shared.dequeuePos = pos
  notPublished : ¬ Published s pos.toNat

/-- The state `s₁` right after the last access that `t` does in a schedule. -/
def LastAccess [DecidableEq ι] (M : Machine (State ι α) (Action ι α) (Event ι α)) (t : ι)
    (as : List (Action ι α)) (s₁ : State ι α) : Prop :=
  ∃ as₁ as₂ tr₁, as = as₁ ++ .step t :: as₂ ∧ (∀ a ∈ as₂, a.thread ≠ t) ∧
    M.exec (as₁ ++ [.step t]) = some (tr₁, s₁)

section

variable [DecidableEq ι] {c : Capacity} {moved : α → α} {raw : Nat → α} {tr : List (Event ι α)}
  {s s' : State ι α} {t : ι}

/-- With `claims + size` up to `2 ^ 63` nothing wraps. -/
theorem noWrap_of_count (run : (machine c moved raw).Run tr s)
    (h : (accepted tr).length + c.toNat ≤ 2 ^ 63) : NoWrap c tr s := by
  have hN := c.toNat_pos
  have inv := Inv.of_run run (by omega)
  have hE := inv.shared.enqueuePos
  have hle := inv.shared.le
  refine ⟨by omega, fun p => ?_⟩
  obtain ⟨r, hr, hlt, -, hcase⟩ := inv.shared.cell p
  rw [seqAt_congr hr] at hcase
  rcases hcase with ⟨hs, -⟩ | ⟨hs, hlt', -⟩ <;> omega

omit [DecidableEq ι] in
/-- A sequence below the position that is current: the cell is in use a lap before. -/
theorem Inv.fullAt (inv : Inv c tr s) (hand : HandedOver c s)
    (hseq : seqAt c s.shared s.shared.enqueuePos.toNat < s.shared.enqueuePos.toNat) :
    FullAt c s.shared.enqueuePos s := by
  have hN := c.toNat_pos
  obtain ⟨r, hr, -, hlap, hcase⟩ := inv.shared.cell s.shared.enqueuePos.toNat
  have hcell := seqAt_congr (q := s.shared) hr
  have hrlt : r < s.shared.enqueuePos.toNat := by
    rcases hcase with ⟨hs, -⟩ | ⟨hs, -⟩ <;> omega
  have hr' : s.shared.enqueuePos.toNat = r + c.toNat := by
    rcases c.eq_or_lap hr hrlt.le with heq | hle <;> omega
  refine ⟨rfl, by omega, by omega, fun hrel => ?_⟩
  have hreleased := hand.released _ hrel
  rw [show s.shared.enqueuePos.toNat - c.toNat = r by omega] at hreleased
  omega

omit [DecidableEq ι] in
/-- A sequence that is not past the position that is current: nothing is published there. -/
theorem HandedOver.emptyAt (hand : HandedOver c s)
    (hseq : seqAt c s.shared s.shared.dequeuePos.toNat < s.shared.dequeuePos.toNat + 1) :
    EmptyAt s.shared.dequeuePos s :=
  ⟨rfl, fun hpub => absurd (hand.published _ hpub) (by omega)⟩

/-- An action of another thread leaves a thread where it is. -/
theorem threads_next {a : Action ι α} {es : List (Event ι α)}
    (h : next c moved s a = some (s', es)) (ha : a.thread ≠ t) : s'.threads t = s.threads t := by
  cases a with
  | tryEnqueue u v =>
    simp only [next] at h
    split at h
    · obtain ⟨rfl, -⟩ := Prod.mk.inj (Option.some.inj h)
      exact Function.update_of_ne (Ne.symm ha) ..
    · exact absurd h (by simp)
  | tryDequeue u =>
    simp only [next] at h
    split at h
    · obtain ⟨rfl, -⟩ := Prod.mk.inj (Option.some.inj h)
      exact Function.update_of_ne (Ne.symm ha) ..
    · exact absurd h (by simp)
  | step u =>
    simp only [next] at h
    split at h
    · exact absurd h (by simp)
    · obtain ⟨rfl, -⟩ := Prod.mk.inj (Option.some.inj h)
      exact Function.update_of_ne (Ne.symm ha) ..
    · obtain ⟨rfl, -⟩ := Prod.mk.inj (Option.some.inj h)
      exact Function.update_of_ne (Ne.symm ha) ..

omit [DecidableEq ι] in
/-- What a refusal of `try_enqueue` has seen. -/
theorem tryEnqueue_events {q : Shared α} {u : ι} {v : α} {pc : EnqueuePc} :
    ((tryEnqueue c q u v pc).2.2 = [.enqueueReturned t false] →
      t = u ∧ ∃ pos, pc = .loadSequence pos ∧ dif (q.cell c pos).sequence pos < 0) ∧
    (tryEnqueue c q u v pc).2.2 ≠ [.dequeueRefused t] := by
  cases pc with
  | loadSequence pos =>
    simp only [tryEnqueue]
    split
    · simp
    · split
      · rename_i hneg
        refine ⟨fun h => ⟨?_, pos, rfl, hneg⟩, by simp⟩
        simpa using h.symm
      · simp
  | exchange pos =>
    simp only [tryEnqueue]
    split <;> simp
  | _ => simp [tryEnqueue]

omit [DecidableEq ι] in
/-- What a refusal of `try_dequeue` has seen. -/
theorem tryDequeue_events {q : Shared α} {u : ι} {pc : DequeuePc α} :
    ((tryDequeue c moved q u pc).2.2 = [.dequeueRefused t] →
      t = u ∧ ∃ pos, pc = .loadSequence pos ∧ dif (q.cell c pos).sequence (pos + 1#64) < 0) ∧
    (tryDequeue c moved q u pc).2.2 ≠ [.enqueueReturned t false] := by
  cases pc with
  | loadSequence pos =>
    simp only [tryDequeue]
    split
    · simp
    · split
      · rename_i hneg
        refine ⟨fun h => ⟨?_, pos, rfl, hneg⟩, by simp⟩
        simpa using h.symm
      · simp
  | exchange pos =>
    simp only [tryDequeue]
    split <;> simp
  | _ => simp [tryDequeue]

/-- A refusing step, from the side of the machine. -/
theorem next_refused {a : Action ι α} {es : List (Event ι α)}
    (h : next c moved s a = some (s', es)) :
    (es = [.enqueueReturned t false] → ∃ v pos, s.threads t = .enqueue v (.loadSequence pos) ∧
      dif (s.shared.cell c pos).sequence pos < 0) ∧
    (es = [.dequeueRefused t] → ∃ pos, s.threads t = .dequeue (.loadSequence pos) ∧
      dif (s.shared.cell c pos).sequence (pos + 1#64) < 0) := by
  rcases next_cases h with ⟨u, v, -, he⟩ | ⟨u, -, he⟩ | ⟨u, v, pc, hl, he⟩ | ⟨u, pc, hl, he⟩ <;>
    obtain ⟨-, rfl⟩ := Prod.mk.inj he
  · exact ⟨fun h => absurd h (by simp), fun h => absurd h (by simp)⟩
  · exact ⟨fun h => absurd h (by simp), fun h => absurd h (by simp)⟩
  · refine ⟨fun hes => ?_, fun hes => absurd hes tryEnqueue_events.2⟩
    obtain ⟨rfl, pos, rfl, hneg⟩ := tryEnqueue_events.1 hes
    exact ⟨v, pos, hl, hneg⟩
  · refine ⟨fun hes => absurd hes tryDequeue_events.2, fun hes => ?_⟩
    obtain ⟨rfl, pos, rfl, hneg⟩ := tryDequeue_events.1 hes
    exact ⟨pos, hl, hneg⟩

/-- A negative difference of two numbers in the range of `intptr_t`. -/
theorem lt_of_dif_neg {x y : BitVec 64} (hx : x.toNat < 2 ^ 63) (hy : y.toNat ≤ 2 ^ 63)
    (h : dif x y < 0) : x.toNat < y.toNat := by
  by_contra hle
  have hsub : (x - y).toNat = x.toNat - y.toNat :=
    BitVec.toNat_sub_of_le (BitVec.le_def.mpr (Nat.not_lt.mp hle))
  unfold dif at h
  rw [BitVec.toInt_eq_toNat_of_lt (by omega)] at h
  omega

omit [DecidableEq ι] in
/-- The position a producer has read is the current one when it reads it. -/
theorem tryEnqueue_obtained {q : Shared α} {u : ι} {v : α} {pc : EnqueuePc} :
    (∀ w pos, (tryEnqueue c q u v pc).2.1 = .enqueue w (.loadSequence pos) →
      (tryEnqueue c q u v pc).1.enqueuePos = pos) ∧
    ∀ pos, (tryEnqueue c q u v pc).2.1 ≠ .dequeue (.loadSequence pos) := by
  cases pc with
  | loadSequence pos =>
    simp only [tryEnqueue]
    split
    · simp
    · split <;> simp
  | exchange pos =>
    simp only [tryEnqueue]
    split
    · simp
    · -- the exchange has failed
      exact ⟨fun _ _ h => (by simpa using h : _ ∧ _).2, by simp⟩
  | loadPos => exact ⟨fun _ _ h => (by simpa [tryEnqueue] using h : _ ∧ _).2, by simp [tryEnqueue]⟩
  | _ => simp [tryEnqueue]

omit [DecidableEq ι] in
/-- So is the one a consumer has read. -/
theorem tryDequeue_obtained {q : Shared α} {u : ι} {pc : DequeuePc α} :
    (∀ pos, (tryDequeue c moved q u pc).2.1 = .dequeue (.loadSequence pos) →
      (tryDequeue c moved q u pc).1.dequeuePos = pos) ∧
    ∀ w pos, (tryDequeue c moved q u pc).2.1 ≠ .enqueue w (.loadSequence pos) := by
  cases pc with
  | loadSequence pos =>
    simp only [tryDequeue]
    split
    · simp
    · split <;> simp
  | exchange pos =>
    simp only [tryDequeue]
    split <;> simp
  | _ => simp [tryDequeue]

/-- A thread that is about to look at a sequence after its access has just read the position. -/
theorem next_obtained {es : List (Event ι α)} (h : next c moved s (.step t) = some (s', es)) :
    (∀ v pos, s'.threads t = .enqueue v (.loadSequence pos) → s'.shared.enqueuePos = pos) ∧
      ∀ pos, s'.threads t = .dequeue (.loadSequence pos) → s'.shared.dequeuePos = pos := by
  simp only [next] at h
  split at h
  · exact absurd h (by simp)
  · obtain ⟨rfl, -⟩ := Prod.mk.inj (Option.some.inj h)
    simp only [Function.update_self]
    exact ⟨tryEnqueue_obtained.1, fun pos hpos => absurd hpos (tryEnqueue_obtained.2 pos)⟩
  · obtain ⟨rfl, -⟩ := Prod.mk.inj (Option.some.inj h)
    simp only [Function.update_self]
    exact ⟨fun v pos hpos => absurd hpos (tryDequeue_obtained.2 v pos), tryDequeue_obtained.1⟩

/-- Between its last access in a schedule and the end of it a thread stays where it is, and the
    sequences grow. -/
theorem lastAccess {as : List (Action ι α)} (hexec : (machine c moved raw).exec as = some (tr, s))
    (hb : (accepted tr).length < 2 ^ 63) {pos : BitVec 64}
    (hl : (∃ v, s.threads t = .enqueue v (.loadSequence pos)) ∨
      s.threads t = .dequeue (.loadSequence pos)) :
    ∃ s₁ tr₁, LastAccess (machine c moved raw) t as s₁ ∧ (machine c moved raw).Run tr₁ s₁ ∧
      (accepted tr₁).length < 2 ^ 63 ∧ s₁.threads t = s.threads t ∧
      (∀ v, s.threads t = .enqueue v (.loadSequence pos) → s₁.shared.enqueuePos = pos) ∧
      (s.threads t = .dequeue (.loadSequence pos) → s₁.shared.dequeuePos = pos) ∧
      ∀ p, seqAt c s₁.shared p ≤ seqAt c s.shared p := by
  have hacts : ∃ a ∈ as, a.thread = t := by
    by_contra hnone
    -- a thread that never acts is outside of a call
    have hidle : s.threads t = .idle := by
      refine Machine.execIf_invariant (I := fun _ s => s.threads t = .idle) hexec rfl ?_
      intro _ _ a _ _ ha hidle _ step
      rw [threads_next step fun hat => hnone ⟨a, ha, hat⟩]
      exact hidle
    rcases hl with ⟨v, hl⟩ | hl <;> exact absurd (hidle.symm.trans hl) (by simp)
  obtain ⟨as₁, a, as₂, tr₀, s₀, es, s₁, rfl, ha, hrest, hfirst, step, hlast⟩ :=
    Machine.exec_last hexec hacts
  have run₀ : (machine c moved raw).Run tr₀ s₀ := Machine.RunIf.execIf .start hfirst
  have run₁ := run₀.snoc trivial step
  -- the rest of the schedule
  have hafter : (machine c moved raw).Run tr s ∧ s.threads t = s₁.threads t ∧
      ((accepted tr).length < 2 ^ 63 → (accepted (tr₀ ++ es)).length < 2 ^ 63 ∧
        ∀ p, seqAt c s₁.shared p ≤ seqAt c s.shared p) := by
    refine Machine.execIf_invariant (I := fun tr s => (machine c moved raw).Run tr s ∧
      s.threads t = s₁.threads t ∧ ((accepted tr).length < 2 ^ 63 →
        (accepted (tr₀ ++ es)).length < 2 ^ 63 ∧ ∀ p, seqAt c s₁.shared p ≤ seqAt c s.shared p))
      hlast ⟨run₁, rfl, fun h => ⟨h, fun _ => le_rfl⟩⟩ ?_
    rintro tr s a s' es ha ⟨run, hthread, hgrow⟩ _ step
    refine ⟨run.snoc trivial step, (threads_next step (hrest a ha)).trans hthread, fun hb => ?_⟩
    rw [accepted_append, List.length_append] at hb
    have hb' : (accepted tr).length < 2 ^ 63 := by omega
    obtain ⟨hstart, hseq⟩ := hgrow hb'
    exact ⟨hstart, fun p => le_trans (hseq p) ((Inv.of_run run hb').seqAt_step step p)⟩
  obtain ⟨-, hthread, hgrow⟩ := hafter
  obtain ⟨hb₁, hseq⟩ := hgrow hb
  -- the start of a call is not what put the thread there
  have hstep : a = .step t := by
    have hl₁ := hthread ▸ hl
    cases a with
    | step u => exact congrArg Action.step ha
    | tryEnqueue u w =>
      obtain rfl : u = t := ha
      simp only [machine, next] at step
      split at step
      · obtain ⟨rfl, -⟩ := Prod.mk.inj (Option.some.inj step)
        simp at hl₁
      · exact absurd step (by simp)
    | tryDequeue u =>
      obtain rfl : u = t := ha
      simp only [machine, next] at step
      split at step
      · obtain ⟨rfl, -⟩ := Prod.mk.inj (Option.some.inj step)
        simp at hl₁
      · exact absurd step (by simp)
  subst hstep
  obtain ⟨henq, hdeq⟩ := next_obtained step
  refine ⟨s₁, tr₀ ++ es, ⟨as₁, as₂, tr₀ ++ es, rfl, hrest, ?_⟩, run₁, hb₁, hthread.symm,
    fun v h => henq v pos (hthread ▸ h), fun h => hdeq pos (hthread ▸ h), hseq⟩
  have hfirst' : (machine c moved raw).execIf (fun _ _ => True) as₁ [] (machine c moved raw).init =
    some (tr₀, s₀) := hfirst
  rw [Machine.exec, Machine.execIf_append, hfirst']
  simp only [Option.bind_some, Machine.execIf, if_true, step]

/-- **The reason.** In every schedule, whoever refuses in the next step: when the call last
    obtained its position, that position was current, and the ring was full for a producer or
    empty for a consumer. -/
theorem refused_of_exec {as : List (Action ι α)} {es : List (Event ι α)}
    (hexec : (machine c moved raw).exec as = some (tr, s)) (hnw : NoWrap c tr s)
    (h : next c moved s (.step t) = some (s', es)) :
    (es = [.enqueueReturned t false] → ∃ s₁ v pos, LastAccess (machine c moved raw) t as s₁ ∧
      s₁.threads t = .enqueue v (.loadSequence pos) ∧ FullAt c pos s₁) ∧
    (es = [.dequeueRefused t] → ∃ s₁ pos, LastAccess (machine c moved raw) t as s₁ ∧
      s₁.threads t = .dequeue (.loadSequence pos) ∧ EmptyAt pos s₁) := by
  refine ⟨fun hes => ?_, fun hes => ?_⟩
  · obtain ⟨v, pos, hl, hneg⟩ := (next_refused h).1 hes
    obtain ⟨s₁, tr₁, hlast, run₁, hb₁, hthread, hpos, -, hseq⟩ :=
      lastAccess hexec hnw.claims (.inl ⟨v, hl⟩)
    have inv := Inv.of_run run₁ hb₁
    obtain rfl := hpos v hl
    refine ⟨s₁, v, _, hlast, hthread.trans hl, inv.fullAt (HandedOver.of_run run₁ hb₁) ?_⟩
    have hlt := lt_of_dif_neg (by rw [cell_sequence]; exact hnw.sequences _)
      inv.shared.bound.le hneg
    rw [cell_sequence] at hlt
    exact lt_of_le_of_lt (hseq _) hlt
  · obtain ⟨pos, hl, hneg⟩ := (next_refused h).2 hes
    obtain ⟨s₁, tr₁, hlast, run₁, hb₁, hthread, -, hpos, hseq⟩ :=
      lastAccess hexec hnw.claims (.inr hl)
    have inv := Inv.of_run run₁ hb₁
    obtain rfl := hpos hl
    refine ⟨s₁, _, hlast, hthread.trans hl, (HandedOver.of_run run₁ hb₁).emptyAt ?_⟩
    have hsucc : (s₁.shared.dequeuePos + 1#64).toNat = s₁.shared.dequeuePos.toNat + 1 :=
      toNat_succ (lt_of_le_of_lt inv.shared.le inv.shared.bound)
    have hlt := lt_of_dif_neg (by rw [cell_sequence]; exact hnw.sequences _)
      (by rw [hsucc]; exact lt_of_le_of_lt inv.shared.le inv.shared.bound) hneg
    rw [cell_sequence, hsucc] at hlt
    exact lt_of_le_of_lt (hseq _) hlt

end

/-- Two cells, and both are taken; between the two loads of the third producer a consumer claims
    the first one, but does not release it. -/
theorem refused_of_exec_two : ∃ as tr s s',
    (machine (ι := Bool) (α := Nat) ⟨⟨1, by decide⟩, by decide⟩ id id).exec as = some (tr, s) ∧
      next ⟨⟨1, by decide⟩, by decide⟩ id s (.step true) =
        some (s', [Event.enqueueReturned true false]) ∧
      ∃ s₁ v pos, LastAccess (machine ⟨⟨1, by decide⟩, by decide⟩ id id) true as s₁ ∧
        s₁.threads true = .enqueue v (.loadSequence pos) ∧
        FullAt ⟨⟨1, by decide⟩, by decide⟩ pos s₁ := by
  have h : ∃ r ∈ (machine (ι := Bool) (α := Nat) ⟨⟨1, by decide⟩, by decide⟩ id id).exec
      ((Action.tryEnqueue false 5 :: List.replicate 5 (Action.step false)) ++
        (Action.tryEnqueue false 6 :: List.replicate 5 (Action.step false)) ++
        [Action.tryEnqueue true 7, Action.step true, Action.tryDequeue false] ++
        List.replicate 4 (Action.step false)),
      (accepted r.1).length = 2 ∧
        (next ⟨⟨1, by decide⟩, by decide⟩ id r.2 (.step true)).map Prod.snd =
          some [Event.enqueueReturned true false] := by
    decide +kernel
  obtain ⟨⟨tr, s⟩, hexec, hacc, hnext⟩ := h
  obtain ⟨⟨s', es⟩, hstep, rfl⟩ := Option.map_eq_some_iff.mp hnext
  refine ⟨_, tr, s, s', hexec, hstep, ?_⟩
  have hnw : NoWrap ⟨⟨1, by decide⟩, by decide⟩ tr s :=
    noWrap_of_count (Machine.RunIf.execIf .start hexec) (by rw [hacc]; decide)
  exact (refused_of_exec hexec hnw hstep).1 rfl

end HopeThreading.MpmcBoundedQueue
