import Mathlib.Algebra.BigOperators.Ring.List
import HopeThreading.Queue.MpmcBoundedRefusal
import HopeThreading.Transition.Potential

namespace HopeThreading.MpmcBoundedQueue

open Transition

/-!
# `mpmc_bounded_queue` — the queue is lock-free

A call goes round its loop only when another call has won the position it had read: a
compare-exchange fails, or the sequence of the cell is already past the position, because the
position it has read is not the current one any more (`Inv.enqueue_fresh`, `Inv.dequeue_fresh`).
So a call that wins a position makes every other call do at most a few accesses again, and it does
that once (`rank`).  The number of accesses in any stretch of a run is bounded by the number of
calls in it (`accesses_le`): no call waits for a thread that has stopped.
-/

variable {ι α : Type*}

/-- The thread is in a call that has not won a position. -/
def waits : Local α → Nat
  | .enqueue _ .loadPos | .enqueue _ (.loadSequence _) | .enqueue _ (.exchange _)
  | .dequeue .loadPos | .dequeue (.loadSequence _) | .dequeue (.exchange _) => 1
  | _ => 0

/-- How many accesses of its own a call still needs when no other call wins a position. -/
def rank (q : Shared α) : Local α → Nat
  | .idle => 0
  | .enqueue _ .loadPos => 5
  | .enqueue _ (.loadSequence pos) => if q.enqueuePos = pos then 4 else 6
  | .enqueue _ (.exchange pos) => if q.enqueuePos = pos then 3 else 5
  | .enqueue _ (.writeData _) => 2
  | .enqueue _ (.storeSequence _) => 1
  | .dequeue .loadPos => 5
  | .dequeue (.loadSequence pos) => if q.dequeuePos = pos then 4 else 6
  | .dequeue (.exchange pos) => if q.dequeuePos = pos then 3 else 5
  | .dequeue (.readData _) => 2
  | .dequeue (.storeSequence _ _) => 1

/-- A thread waits for one other at most. -/
theorem waits_le (l : Local α) : waits l ≤ 1 := by
  unfold waits
  split <;> omega

/-- A call is never more than six steps from its end or its next round. -/
theorem rank_le (q : Shared α) (l : Local α) : rank q l ≤ 6 := by
  unfold rank
  split <;> first | omega | (split <;> omega)

/-- The ranks depend on the two positions only. -/
theorem rank_congr {q q' : Shared α} (hE : q'.enqueuePos = q.enqueuePos)
    (hD : q'.dequeuePos = q.dequeuePos) : rank q' = rank q := by
  funext l
  unfold rank
  rw [hE, hD]

/-- The signed difference of two numbers in the range of `intptr_t` is the true one. -/
theorem dif_eq_sub {x y : BitVec 64} (hx : x.toNat < 2 ^ 63) (hy : y.toNat < 2 ^ 63) :
    dif x y = (x.toNat : Int) - y.toNat := by
  rw [dif, BitVec.toInt_sub, BitVec.toInt_eq_toNat_of_lt (by omega),
    BitVec.toInt_eq_toNat_of_lt (by omega)]
  exact Int.bmod_eq_of_le (by omega) (by omega)

section

variable {c : Capacity} {tr : List (Event ι α)} {s : State ι α}

/-- The sequence at the current position of the producers is not past it … -/
theorem Inv.enqueue_fresh (inv : Inv c tr s) (hnw : NoWrap c tr s) {pos : BitVec 64}
    (hpos : s.shared.enqueuePos = pos) : dif (s.shared.cell c pos).sequence pos ≤ 0 := by
  have hbound := inv.shared.bound
  have hle := inv.shared.le
  have hE : s.shared.enqueuePos.toNat = pos.toNat := by rw [hpos]
  obtain ⟨r, hr, hlt, hlap, hcase⟩ := inv.shared.cell pos.toNat
  rw [dif_eq_sub (by rw [cell_sequence]; exact hnw.sequences _) (by omega), cell_sequence,
    seqAt_congr hr.symm]
  have hrle : r ≤ pos.toNat := by
    by_contra hgt
    rcases c.eq_or_lap hr.symm (by omega) with heq | hle' <;> omega
  rcases hcase with ⟨hs, -⟩ | ⟨hs, hre, -⟩ <;> omega

/-- … nor is the one at the current position of the consumers past its value. -/
theorem Inv.dequeue_fresh (inv : Inv c tr s) (hnw : NoWrap c tr s)
    (hroom : s.shared.enqueuePos.toNat + 1 < 2 ^ 63) {pos : BitVec 64}
    (hpos : s.shared.dequeuePos = pos) : dif (s.shared.cell c pos).sequence (pos + 1#64) ≤ 0 := by
  have hle := inv.shared.le
  have hD : s.shared.dequeuePos.toNat = pos.toNat := by rw [hpos]
  obtain ⟨r, hr, hlt, hlap, hcase⟩ := inv.shared.cell pos.toNat
  have hsucc : (pos + 1#64).toNat = pos.toNat + 1 := toNat_succ (by omega)
  rw [dif_eq_sub (by rw [cell_sequence]; exact hnw.sequences _) (by omega), cell_sequence, hsucc,
    seqAt_congr hr.symm]
  have hrle : r ≤ pos.toNat := by
    by_contra hgt
    rcases c.eq_or_lap hr.symm (by omega) with heq | hle' <;> omega
  rcases hcase with ⟨hs, -⟩ | ⟨hs, hre, -⟩ <;> omega

end

/-! ### The potential -/

section

variable [Fintype ι] [DecidableEq ι] {c : Capacity} {moved : α → α} {raw : Nat → α}
  {tr : List (Event ι α)} {s s' : State ι α}

/-- What the calls that are under way still cost. -/
def State.potential (s : State ι α) : Nat :=
  Transition.potential 6 waits (rank s.shared) s.threads

/-- An access that wins no position. -/
theorem potential_commit {t : ι} {q : Shared α} {l : Local α} {es : List (Event ι α)}
    (hE : q.enqueuePos = s.shared.enqueuePos) (hD : q.dequeuePos = s.shared.dequeuePos)
    (hwaits : waits l ≤ waits (s.threads t))
    (hrank : rank s.shared l + 1 ≤ rank s.shared (s.threads t)) :
    (s.commit t (q, l, es)).1.potential + 1 ≤ s.potential := by
  show Transition.potential 6 waits (rank q) (Function.update s.threads t l) + 1 ≤ _
  rw [rank_congr hE hD]
  exact potential_keep hwaits hrank

/-- An access that wins a position. -/
theorem potential_claim {t : ι} {q : Shared α} {l : Local α} {es : List (Event ι α)}
    (hl : waits l = 0) (ht : waits (s.threads t) = 1) :
    (s.commit t (q, l, es)).1.potential + 1 ≤ s.potential := by
  refine potential_spend ?_ fun u => rank_le q _
  show waits l + 1 ≤ waits (s.threads t)
  omega

/-- An access of `try_enqueue`. -/
theorem tryEnqueue_paid (inv : Inv c tr s) (hnw : NoWrap c tr s) {t : ι} {v : α} {pc : EnqueuePc}
    (hl : s.threads t = .enqueue v pc) :
    (s.commit t (tryEnqueue c s.shared t v pc)).1.potential + 1 ≤ s.potential := by
  cases pc with
  | loadPos => exact potential_commit rfl rfl (by simp [hl, waits]) (by simp [hl, rank])
  | loadSequence pos =>
    simp only [tryEnqueue]
    split
    · refine potential_commit rfl rfl (by simp [hl, waits]) ?_
      simp only [hl, rank]
      split <;> omega
    · split
      · refine potential_commit rfl rfl (by simp [waits]) ?_
        simp only [hl, rank]
        split <;> omega
      · -- the sequence is past the position, which is an old one then
        rename_i hzero hneg
        have hstale : s.shared.enqueuePos ≠ pos := fun hpos => by
          have hle := inv.enqueue_fresh hnw hpos
          omega
        refine potential_commit rfl rfl (by simp [hl, waits]) ?_
        simp [hl, rank, hstale]
  | exchange pos =>
    simp only [tryEnqueue]
    split
    · exact potential_claim rfl (by rw [hl]; rfl)
    · rename_i hstale
      exact potential_commit rfl rfl (by simp [hl, waits]) (by simp [hl, rank, hstale])
  | writeData pos => exact potential_commit rfl rfl (by simp [waits]) (by simp [hl, rank])
  | storeSequence pos => exact potential_commit rfl rfl (by simp [waits]) (by simp [hl, rank])

/-- An access of `try_dequeue`. -/
theorem tryDequeue_paid (inv : Inv c tr s) (hnw : NoWrap c tr s)
    (hroom : s.shared.enqueuePos.toNat + 1 < 2 ^ 63) {t : ι} {pc : DequeuePc α}
    (hl : s.threads t = .dequeue pc) :
    (s.commit t (tryDequeue c moved s.shared t pc)).1.potential + 1 ≤ s.potential := by
  cases pc with
  | loadPos => exact potential_commit rfl rfl (by simp [hl, waits]) (by simp [hl, rank])
  | loadSequence pos =>
    simp only [tryDequeue]
    split
    · refine potential_commit rfl rfl (by simp [hl, waits]) ?_
      simp only [hl, rank]
      split <;> omega
    · split
      · refine potential_commit rfl rfl (by simp [waits]) ?_
        simp only [hl, rank]
        split <;> omega
      · rename_i hzero hneg
        have hstale : s.shared.dequeuePos ≠ pos := fun hpos => by
          have hle := inv.dequeue_fresh hnw hroom hpos
          omega
        refine potential_commit rfl rfl (by simp [hl, waits]) ?_
        simp [hl, rank, hstale]
  | exchange pos =>
    simp only [tryDequeue]
    split
    · exact potential_claim rfl (by rw [hl]; rfl)
    · rename_i hstale
      exact potential_commit rfl rfl (by simp [hl, waits]) (by simp [hl, rank, hstale])
  | readData pos => exact potential_commit rfl rfl (by simp [waits]) (by simp [hl, rank])
  | storeSequence pos out => exact potential_commit rfl rfl (by simp [waits]) (by simp [hl, rank])

/-- The actions that are accesses, … -/
def accesses : Action ι α → Nat
  | .step _ => 1
  | _ => 0

/-- … and the ones that start a call. -/
def starts : Action ι α → Nat
  | .step _ => 0
  | _ => 1

/-- **Step lemma.** An access is paid for by the potential, a call brings what it costs. -/
theorem potential_step (inv : Inv c tr s) (hnw : NoWrap c tr s)
    (hroom : s.shared.enqueuePos.toNat + 1 < 2 ^ 63) {a : Action ι α} {es : List (Event ι α)}
    (h : next c moved s a = some (s', es)) :
    s'.potential + accesses a ≤ s.potential + (6 * Fintype.card ι + 6) * starts a := by
  -- a call that starts brings all it may cost
  have hstart : ∀ t l, s.threads t = .idle → waits l = 1 → rank s.shared l = 5 →
      (s.commit t (s.shared, l, ([] : List (Event ι α)))).1.potential ≤
        s.potential + (6 * Fintype.card ι + 6) := fun t l hl hw hr => by
    refine potential_begin (d := 5) ?_ ?_
    · show waits l ≤ waits (s.threads t) + 1
      omega
    · show rank s.shared l ≤ rank s.shared (s.threads t) + 5
      omega
  cases a with
  | tryEnqueue t v =>
    simp only [next] at h
    split at h
    · rename_i hl
      cases h
      show _ ≤ s.potential + (6 * Fintype.card ι + 6) * 1
      rw [Nat.mul_one]
      exact hstart t (.enqueue v .loadPos) hl rfl rfl
    · exact absurd h (by simp)
  | tryDequeue t =>
    simp only [next] at h
    split at h
    · rename_i hl
      cases h
      show _ ≤ s.potential + (6 * Fintype.card ι + 6) * 1
      rw [Nat.mul_one]
      exact hstart t (.dequeue .loadPos) hl rfl rfl
    · exact absurd h (by simp)
  | step t =>
    simp only [next] at h
    split at h
    · exact absurd h (by simp)
    · rename_i v pc hl
      cases h
      exact tryEnqueue_paid inv hnw hl
    · rename_i pc hl
      cases h
      exact tryDequeue_paid inv hnw hroom hl

/-- **Lock-freedom.** In any stretch of a run, with `n` threads and as long as no position leaves
    the range of `intptr_t`, there are at most `6 n + 6` accesses for each call that starts in it,
    and `n (6 n + 7)` more for the calls that were under way. -/
theorem accesses_le (run : (machine c moved raw).Run tr s) {as : List (Action ι α)}
    {tr' : List (Event ι α)}
    (h : (machine c moved raw).execIf (fun _ _ => True) as tr s = some (tr', s'))
    (hb : (accepted tr').length + c.toNat ≤ 2 ^ 63) :
    (as.map accesses).sum ≤ Fintype.card ι * (6 * Fintype.card ι + 7) +
      (6 * Fintype.card ι + 6) * (as.map starts).sum := by
  have htwo := two_le_toNat c
  have hpaid := Machine.execIf_amortized (fun tr s => (machine c moved raw).Run tr s)
    State.potential accesses (fun a => (6 * Fintype.card ι + 6) * starts a) h run ?_
  · have hstart : s.potential ≤ _ := potential_le (fun u => waits_le _) fun u => rank_le _ _
    rw [List.sum_map_mul_left] at hpaid
    have hsplit : Fintype.card ι * (6 * Fintype.card ι + 7) =
        Fintype.card ι * (6 * Fintype.card ι + 1) + 6 * Fintype.card ι := by
      rw [Nat.mul_add, Nat.mul_add, Nat.mul_one]
      omega
    omega
  · intro tr s a s' es run _ hpre hnext
    have hlen : (accepted tr).length ≤ (accepted tr').length := by
      obtain ⟨rest, rfl⟩ := hpre
      rw [accepted_append, accepted_append, List.length_append, List.length_append]
      omega
    have hnw := noWrap_of_count run (by omega)
    have inv := Inv.of_run run hnw.claims
    have hE := inv.shared.enqueuePos
    exact ⟨run.snoc trivial hnext, potential_step inv hnw (by omega) hnext⟩

end

/-- A thread puts a value into a queue of two cells while another one looks for it: ten accesses
    for two calls. -/
theorem accesses_le_two : ∃ (as : List (Action Bool Nat)) (tr : List (Event Bool Nat))
    (s : State Bool Nat), (machine ⟨⟨1, by decide⟩, by decide⟩ id id).exec as = some (tr, s) ∧
      (as.map accesses).sum = 10 ∧ (as.map starts).sum = 2 ∧
      (as.map accesses).sum ≤ 2 * 19 + 18 * (as.map starts).sum := by
  obtain ⟨⟨tr, s⟩, hexec, hacc⟩ : ∃ r ∈ (machine (ι := Bool) (α := Nat)
      ⟨⟨1, by decide⟩, by decide⟩ id id).exec
      ([Action.tryEnqueue true 7, Action.tryDequeue false] ++ List.replicate 5 (Action.step true) ++
        List.replicate 5 (Action.step false)), (accepted r.1).length + 2 ≤ 2 ^ 63 := by
    decide +kernel
  exact ⟨_, tr, s, hexec, rfl, rfl, accesses_le .start hexec hacc⟩

end HopeThreading.MpmcBoundedQueue
