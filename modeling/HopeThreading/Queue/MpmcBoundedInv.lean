import HopeThreading.Queue.MpmcBounded
import HopeThreading.Transition.Fifo

namespace HopeThreading.MpmcBoundedQueue

open Transition

/-!
# `mpmc_bounded_queue` — the global invariant

Everything is phrased with positions as natural numbers: as long as fewer than `2 ^ 63`
positions were claimed no word has wrapped.  The heart is `CellInv`: a cell with
sequence `p` (at the slot of `p`) waits for, or is being filled by, the producer of
position `p`; with sequence `p + 1` it waits for, or is being emptied by, the consumer of
`p`; and `p` is within one lap of both positions.  A paused thread only relies on facts
that other threads cannot undo: a sequence it has seen can only grow, and the cell it
owns is written by nobody else (`LocalInv.frame`).
-/

variable {ι α : Type*}

/-! ### What a run has claimed and returned -/

/-- The values accepted so far, in the order of the claimed positions. -/
def accepted (tr : List (Event ι α)) : List α :=
  tr.filterMap fun
    | .enqueueClaimed _ _ v => some v
    | _ => none

/-- The positions claimed by producers, in the order of the claims. -/
def enqueueClaims (tr : List (Event ι α)) : List Nat :=
  tr.filterMap fun
    | .enqueueClaimed _ pos _ => some pos.toNat
    | _ => none

/-- The positions claimed by consumers, in the order of the claims. -/
def dequeueClaims (tr : List (Event ι α)) : List Nat :=
  tr.filterMap fun
    | .dequeueClaimed _ pos => some pos.toNat
    | _ => none

/-- What the successful `try_dequeue` calls returned: the claimed position and the value. -/
def returned (tr : List (Event ι α)) : List (Nat × α) :=
  tr.filterMap fun
    | .dequeueReturned _ pos v => some (pos.toNat, v)
    | _ => none

/-! ### Who owns a cell -/

/-- The position a thread owns as a producer: from its compare-exchange to its sequence
    store. -/
def producing : Local α → Option Nat
  | .enqueue _ (.writeData pos) => some pos.toNat
  | .enqueue _ (.storeSequence pos) => some pos.toNat
  | _ => none

/-- The position a thread owns as a consumer. -/
def consuming : Local α → Option Nat
  | .dequeue (.readData pos) => some pos.toNat
  | .dequeue (.storeSequence pos _) => some pos.toNat
  | _ => none

/-- The position a thread owns, on either side. -/
def owned : Local α → Option Nat
  | .enqueue _ (.writeData pos) => some pos.toNat
  | .enqueue _ (.storeSequence pos) => some pos.toNat
  | .dequeue (.readData pos) => some pos.toNat
  | .dequeue (.storeSequence pos _) => some pos.toNat
  | _ => none

/-! ### The invariant -/

section

variable (c : Capacity) (acc : List α) (q : Shared α)

/-- The sequence number of the cell of position `p`. -/
def seqAt (p : Nat) : Nat := (q.buffer (p % c.toNat)).sequence.toNat

/-- The data in the cell of position `p`. -/
def dataAt (p : Nat) : α := (q.buffer (p % c.toNat)).data

/-- The state of the cell at slot `i`: it serves some position `p` of that slot, and is
    free (or being filled) with sequence `p`, or full (or being emptied) with `p + 1`. -/
def CellInv (i : Nat) : Prop :=
  ∃ p, p % c.toNat = i ∧ p < q.dequeuePos.toNat + c.toNat ∧ q.enqueuePos.toNat ≤ p + c.toNat ∧
    (seqAt c q p = p ∧ q.dequeuePos.toNat ≤ p ∨
      seqAt c q p = p + 1 ∧ p < q.enqueuePos.toNat ∧
        (q.dequeuePos.toNat ≤ p → acc[p]? = some (dataAt c q p)))

/-- What a thread relies on between two of its accesses. -/
def LocalInv : Local α → Prop
  | .enqueue _ (.exchange pos) => pos.toNat ≤ seqAt c q pos.toNat
  | .enqueue v (.writeData pos) =>
    pos.toNat < q.enqueuePos.toNat ∧ seqAt c q pos.toNat = pos.toNat ∧ acc[pos.toNat]? = some v
  | .enqueue _ (.storeSequence pos) =>
    pos.toNat < q.enqueuePos.toNat ∧ seqAt c q pos.toNat = pos.toNat ∧
      acc[pos.toNat]? = some (dataAt c q pos.toNat)
  | .dequeue (.loadSequence pos) => pos.toNat ≤ q.dequeuePos.toNat
  | .dequeue (.exchange pos) =>
    pos.toNat ≤ q.dequeuePos.toNat ∧ pos.toNat + 1 ≤ seqAt c q pos.toNat
  | .dequeue (.readData pos) =>
    pos.toNat < q.dequeuePos.toNat ∧ seqAt c q pos.toNat = pos.toNat + 1 ∧
      acc[pos.toNat]? = some (dataAt c q pos.toNat)
  | .dequeue (.storeSequence pos out) =>
    pos.toNat < q.dequeuePos.toNat ∧ seqAt c q pos.toNat = pos.toNat + 1 ∧
      acc[pos.toNat]? = some out
  | _ => True

end

/-- The part of the invariant about the shared members and the accepted values. -/
structure SharedInv (c : Capacity) (acc : List α) (q : Shared α) : Prop where
  enqueuePos : q.enqueuePos.toNat = acc.length
  le : q.dequeuePos.toNat ≤ q.enqueuePos.toNat
  bound : q.enqueuePos.toNat < 2 ^ 63
  cell : ∀ p, CellInv c acc q (p % c.toNat)

/-- The invariant of the whole system. -/
structure Inv (c : Capacity) (tr : List (Event ι α)) (s : State ι α) : Prop where
  shared : SharedInv c (accepted tr) s.shared
  threads : ∀ t, LocalInv c (accepted tr) s.shared (s.threads t)
  producers : Exclusive producing s.threads
  consumers : Exclusive consuming s.threads
  enqueueOrder : enqueueClaims tr = List.range s.shared.enqueuePos.toNat
  dequeueOrder : dequeueClaims tr = List.range s.shared.dequeuePos.toNat
  outputs : ∀ p v, (p, v) ∈ returned tr → p < s.shared.dequeuePos.toNat ∧
    (accepted tr)[p]? = some v ∧ ∀ t, consuming (s.threads t) ≠ some p
  outputOnce : ((returned tr).map Prod.fst).Nodup
  pending : ∀ p, p < s.shared.dequeuePos.toNat →
    (∃ v, (p, v) ∈ returned tr) ∨ ∃ t, consuming (s.threads t) = some p

/-! ### Cells and positions -/

section

variable {c : Capacity} {q : Shared α}

/-- A queue has room for two values at least. -/
theorem two_le_toNat (c : Capacity) : 2 ≤ c.toNat := by
  have h := Nat.pow_le_pow_right (n := 2) (by omega) c.exp_pos
  simpa [Words.PowTwo.toNat] using h

/-- A capacity is at most the largest power of two in a word. -/
theorem toNat_le (c : Capacity) : c.toNat ≤ 2 ^ 63 := c.toPowTwo.toNat_le_half

/-- Positions a lap apart have one cell, and one number in it. -/
theorem seqAt_congr {p p' : Nat} (h : p % c.toNat = p' % c.toNat) :
    seqAt c q p = seqAt c q p' := by
  rw [seqAt, seqAt, h]

@[simp] theorem cell_sequence (pos : BitVec 64) :
    (q.cell c pos).sequence.toNat = seqAt c q pos.toNat := by
  rw [Shared.cell, seqAt, c.toNat_and_mask]

@[simp] theorem cell_data (pos : BitVec 64) : (q.cell c pos).data = dataAt c q pos.toNat := by
  rw [Shared.cell, dataAt, c.toNat_and_mask]

@[simp] theorem setCell_enqueuePos (pos : BitVec 64) (x : Cell α) :
    (q.setCell c pos x).enqueuePos = q.enqueuePos := rfl

@[simp] theorem setCell_dequeuePos (pos : BitVec 64) (x : Cell α) :
    (q.setCell c pos x).dequeuePos = q.dequeuePos := rfl

/-- The number in a cell is changed at the positions of that cell only, … -/
theorem seqAt_setCell (pos : BitVec 64) (x : Cell α) (p : Nat) :
    seqAt c (q.setCell c pos x) p =
      if p % c.toNat = pos.toNat % c.toNat then x.sequence.toNat else seqAt c q p := by
  simp only [seqAt, Shared.setCell, c.toNat_and_mask, Function.update_apply]
  split <;> rfl

/-- … and so is the value in it. -/
theorem dataAt_setCell (pos : BitVec 64) (x : Cell α) (p : Nat) :
    dataAt c (q.setCell c pos x) p =
      if p % c.toNat = pos.toNat % c.toNat then x.data else dataAt c q p := by
  simp only [dataAt, Shared.setCell, c.toNat_and_mask, Function.update_apply]
  split <;> rfl

/-- Adding one to a position that is below `2 ^ 63` does not wrap. -/
theorem toNat_succ {pos : BitVec 64} (h : pos.toNat < 2 ^ 63) :
    (pos + 1#64).toNat = pos.toNat + 1 := by
  rw [BitVec.toNat_add, BitVec.toNat_ofNat]
  omega

/-- Nor does adding a lap. -/
theorem toNat_add_lap {pos : BitVec 64} (h : pos.toNat < 2 ^ 63) :
    (pos + c.mask + 1#64).toNat = pos.toNat + c.toNat := by
  have hN := toNat_le c
  have hpos := c.toNat_pos
  rw [BitVec.toNat_add, BitVec.toNat_add, BitVec.toNat_ofNat, c.toNat_mask]
  omega

end

/-! ### Reading the invariant of one cell -/

section

variable {c : Capacity} {acc acc' : List α} {q q' : Shared α}

/-- A producer that saw a sequence of at least `pos` and still finds `m_enqueue_pos = pos`
    finds the cell free. -/
theorem SharedInv.free_of_claim (inv : SharedInv c acc q) {p : Nat}
    (hpos : q.enqueuePos.toNat = p) (hseq : p ≤ seqAt c q p) : seqAt c q p = p := by
  obtain ⟨r, hr, hlt, -, hcase⟩ := inv.cell p
  have hle := inv.le
  rw [seqAt_congr hr] at hcase
  rcases hcase with ⟨hs, -⟩ | ⟨hs, hre, -⟩
  · rcases c.eq_or_lap hr.symm (by omega) with h | h <;> omega
  · have hpr : p = r + 1 := by omega
    exact absurd (hpr ▸ hr.symm) (c.succ_mod_ne c.exp_pos r)

/-- A consumer that saw a sequence of at least `pos + 1` and still finds
    `m_dequeue_pos = pos` finds the cell full with the value of position `pos`. -/
theorem SharedInv.full_of_claim (inv : SharedInv c acc q) {p : Nat}
    (hpos : q.dequeuePos.toNat = p) (hseq : p + 1 ≤ seqAt c q p) :
    seqAt c q p = p + 1 ∧ p < q.enqueuePos.toNat ∧ acc[p]? = some (dataAt c q p) := by
  obtain ⟨r, hr, hlt, -, hcase⟩ := inv.cell p
  rw [seqAt_congr hr] at hcase
  rcases hcase with ⟨hs, -⟩ | ⟨hs, hre, hdata⟩
  · rcases c.eq_or_lap hr.symm (by omega) with h | h <;> omega
  · rcases c.eq_or_lap hr.symm (by omega) with h | h
    · subst h
      exact ⟨hs, hre, hdata (by omega)⟩
    · omega

/-- A thread owns a position on one side, with the sequence number of that side. -/
theorem LocalInv.owned_seq {l : Local α} {p : Nat} (h : LocalInv c acc q l)
    (hp : owned l = some p) : (producing l = some p ∧ seqAt c q p = p) ∨
      (consuming l = some p ∧ seqAt c q p = p + 1) := by
  cases l with
  | idle => exact absurd hp (by simp [owned])
  | enqueue v pc =>
    cases pc
    case writeData pos => obtain rfl : pos.toNat = p := by simpa [owned] using hp
                          exact .inl ⟨rfl, h.2.1⟩
    case storeSequence pos => obtain rfl : pos.toNat = p := by simpa [owned] using hp
                              exact .inl ⟨rfl, h.2.1⟩
    all_goals exact absurd hp (by simp [owned])
  | dequeue pc =>
    cases pc
    case readData pos => obtain rfl : pos.toNat = p := by simpa [owned] using hp
                         exact .inr ⟨rfl, h.2.1⟩
    case storeSequence pos out => obtain rfl : pos.toNat = p := by simpa [owned] using hp
                                  exact .inr ⟨rfl, h.2.1⟩
    all_goals exact absurd hp (by simp [owned])

/-- The position that a producer has claimed is behind `m_enqueue_pos`. -/
theorem LocalInv.producing_lt {l : Local α} {p : Nat} (h : LocalInv c acc q l)
    (hp : producing l = some p) : p < q.enqueuePos.toNat := by
  unfold producing at hp
  split at hp
  · obtain rfl := Option.some.inj hp; exact h.1
  · obtain rfl := Option.some.inj hp; exact h.1
  · exact absurd hp (by simp)

/-- The position that a consumer has claimed is behind `m_dequeue_pos`. -/
theorem LocalInv.consuming_lt {l : Local α} {p : Nat} (h : LocalInv c acc q l)
    (hp : consuming l = some p) : p < q.dequeuePos.toNat := by
  unfold consuming at hp
  split at hp
  · obtain rfl := Option.some.inj hp; exact h.1
  · obtain rfl := Option.some.inj hp; exact h.1
  · exact absurd hp (by simp)

/-- **Frame rule.** A thread's facts survive any change that moves the positions and the
    sequence numbers up only and leaves alone the cell the thread owns. -/
theorem LocalInv.frame {l : Local α} (h : LocalInv c acc q l)
    (henq : q.enqueuePos.toNat ≤ q'.enqueuePos.toNat)
    (hdeq : q.dequeuePos.toNat ≤ q'.dequeuePos.toNat) (hacc : acc <+: acc')
    (hseq : ∀ p, seqAt c q p ≤ seqAt c q' p)
    (hown : ∀ p, owned l = some p → seqAt c q' p = seqAt c q p ∧ dataAt c q' p = dataAt c q p) :
    LocalInv c acc' q' l := by
  have hget : ∀ {p : Nat} {v : α}, acc[p]? = some v → acc'[p]? = some v :=
    fun hv => getElem?_mono hacc hv
  cases l with
  | idle => trivial
  | enqueue v pc =>
    cases pc with
    | loadPos | loadSequence => trivial
    | exchange pos => exact le_trans h (hseq _)
    -- a claimed cell is the thread's own
    | writeData pos =>
      obtain ⟨hs, -⟩ := hown _ rfl
      exact ⟨lt_of_lt_of_le h.1 henq, hs.trans h.2.1, hget h.2.2⟩
    | storeSequence pos =>
      obtain ⟨hs, hd⟩ := hown _ rfl
      exact ⟨lt_of_lt_of_le h.1 henq, hs.trans h.2.1, hd ▸ hget h.2.2⟩
  | dequeue pc =>
    cases pc with
    | loadPos => trivial
    | loadSequence pos => exact le_trans h hdeq
    | exchange pos => exact ⟨le_trans h.1 hdeq, le_trans h.2 (hseq _)⟩
    | readData pos =>
      obtain ⟨hs, hd⟩ := hown _ rfl
      exact ⟨lt_of_lt_of_le h.1 hdeq, hs.trans h.2.1, hd ▸ hget h.2.2⟩
    | storeSequence pos out =>
      obtain ⟨hs, -⟩ := hown _ rfl
      exact ⟨lt_of_lt_of_le h.1 hdeq, hs.trans h.2.1, hget h.2.2⟩

end

/-- **Exclusive cells.** Two threads never own the same cell. -/
theorem Inv.owned_cell_ne {c : Capacity} {tr : List (Event ι α)} {s : State ι α}
    (inv : Inv c tr s) {t u : ι} {p r : Nat} (htu : t ≠ u)
    (ht : owned (s.threads t) = some p) (hu : owned (s.threads u) = some r) :
    p % c.toNat ≠ r % c.toNat := by
  intro hcell
  have hseq := seqAt_congr (q := s.shared) hcell
  rcases (inv.threads t).owned_seq ht with ⟨htp, htseq⟩ | ⟨htp, htseq⟩ <;>
    rcases (inv.threads u).owned_seq hu with ⟨hup, huseq⟩ | ⟨hup, huseq⟩
  · obtain rfl : p = r := by omega
    exact htu (inv.producers htp hup)
  · obtain rfl : p = r + 1 := by omega
    exact c.succ_mod_ne c.exp_pos r hcell
  · obtain rfl : r = p + 1 := by omega
    exact c.succ_mod_ne c.exp_pos p hcell.symm
  · obtain rfl : p = r := by omega
    exact htu (inv.consumers htp hup)

/-! ### The six changes of the shared members -/

section

variable {c : Capacity} {acc : List α} {q : Shared α}

/-- A producer wins position `pos`. -/
theorem SharedInv.claim_enqueue (inv : SharedInv c acc q) {pos : BitVec 64} (v : α)
    (hpos : q.enqueuePos = pos) (hseq : pos.toNat ≤ seqAt c q pos.toNat)
    (hbound : acc.length + 1 < 2 ^ 63) :
    SharedInv c (acc ++ [v]) { q with enqueuePos := pos + 1#64 } := by
  have hE : q.enqueuePos.toNat = pos.toNat := by rw [hpos]
  have hlen := inv.enqueuePos
  have hsucc : (pos + 1#64).toNat = pos.toNat + 1 := toNat_succ (by omega)
  have hfree := inv.free_of_claim hE hseq
  have htwo := two_le_toNat c
  refine ⟨?_, ?_, ?_, fun p => ?_⟩
  · simp only [hsucc, List.length_append, List.length_singleton]; omega
  · simp only [hsucc]; have := inv.le; omega
  · simp only [hsucc]; omega
  · obtain ⟨r, hr, hlt, hle, hcase⟩ := inv.cell p
    refine ⟨r, hr, hlt, ?_, ?_⟩
    · -- position `r + size` cannot be claimed while the cell still serves `r`
      show (pos + 1#64).toNat ≤ r + c.toNat
      by_contra hcon
      have hlap : pos.toNat = r + c.toNat := by omega
      have hsame : seqAt c q pos.toNat = seqAt c q r := seqAt_congr (by rw [hlap, Nat.add_mod_right])
      rcases hcase with ⟨hs, -⟩ | ⟨hs, -⟩ <;> omega
    · -- the cell is as free or as full as before
      rcases hcase with ⟨hs, hd⟩ | ⟨hs, hre, hdata⟩
      · exact .inl ⟨hs, hd⟩
      · refine .inr ⟨hs, ?_, fun hd => getElem?_mono (List.prefix_append _ _) (hdata hd)⟩
        show r < (pos + 1#64).toNat
        omega

/-- A consumer wins position `pos`. -/
theorem SharedInv.claim_dequeue (inv : SharedInv c acc q) {pos : BitVec 64}
    (hpos : q.dequeuePos = pos) (hseq : pos.toNat + 1 ≤ seqAt c q pos.toNat) :
    SharedInv c acc { q with dequeuePos := pos + 1#64 } := by
  have hD : q.dequeuePos.toNat = pos.toNat := by rw [hpos]
  have hle := inv.le
  have hb := inv.bound
  obtain ⟨hfull, hpe, -⟩ := inv.full_of_claim hD hseq
  have hsucc : (pos + 1#64).toNat = pos.toNat + 1 := toNat_succ (by omega)
  refine ⟨inv.enqueuePos, ?_, hb, fun p => ?_⟩
  · simp only [hsucc]; omega
  · obtain ⟨r, hr, hlt, hre, hcase⟩ := inv.cell p
    refine ⟨r, hr, ?_, hre, ?_⟩
    · show r < (pos + 1#64).toNat + c.toNat
      omega
    · rcases hcase with ⟨hs, hd⟩ | ⟨hs, hlt', hdata⟩
      · refine .inl ⟨hs, ?_⟩
        show (pos + 1#64).toNat ≤ r
        -- a free cell does not serve the position that is claimed
        have hne : r ≠ pos.toNat := by
          intro heq
          rw [heq] at hs
          omega
        omega
      · refine .inr ⟨hs, hlt', fun hd => hdata ?_⟩
        have hd' : (pos + 1#64).toNat ≤ r := hd
        omega

/-- The owner of a cell changes its data. -/
theorem SharedInv.set_data (inv : SharedInv c acc q) {pos : BitVec 64} (x : α)
    (hown : seqAt c q pos.toNat = pos.toNat ∨
      seqAt c q pos.toNat = pos.toNat + 1 ∧ pos.toNat < q.dequeuePos.toNat) :
    SharedInv c acc (q.setCell c pos { q.cell c pos with data := x }) := by
  have hseq : ∀ p, seqAt c (q.setCell c pos { q.cell c pos with data := x }) p = seqAt c q p := by
    intro p
    rw [seqAt_setCell]
    split
    · rename_i h; rw [cell_sequence]; exact seqAt_congr h.symm
    · rfl
  refine ⟨inv.enqueuePos, inv.le, inv.bound, fun p => ?_⟩
  obtain ⟨r, hr, hlt, hle, hcase⟩ := inv.cell p
  refine ⟨r, hr, hlt, hle, ?_⟩
  rw [hseq]
  rcases hcase with hfree | ⟨hs, hre, hdata⟩
  · exact .inl hfree
  · refine .inr ⟨hs, hre, fun hd => ?_⟩
    rw [dataAt_setCell]
    split
    · -- the owner's cell is not full and unclaimed
      rename_i hcell
      rw [seqAt_congr hcell] at hs
      rcases hown with hfree | ⟨hfull, hlt⟩
      · have : pos.toNat = r + 1 := by omega
        exact absurd (this ▸ hcell.symm) (c.succ_mod_ne c.exp_pos r)
      · simp only [setCell_dequeuePos] at hd
        omega
    · exact hdata hd

/-- The producer of `pos` publishes the cell. -/
theorem SharedInv.publish (inv : SharedInv c acc q) {pos : BitVec 64}
    (hlt : pos.toNat < q.enqueuePos.toNat) (hseq : seqAt c q pos.toNat = pos.toNat)
    (hdata : acc[pos.toNat]? = some (dataAt c q pos.toNat)) :
    SharedInv c acc (q.setCell c pos { q.cell c pos with sequence := pos + 1#64 }) := by
  have hb := inv.bound
  have hsucc : (pos + 1#64).toNat = pos.toNat + 1 := toNat_succ (by omega)
  refine ⟨inv.enqueuePos, inv.le, hb, fun p => ?_⟩
  obtain ⟨r, hr, hrlt, hle, hcase⟩ := inv.cell p
  refine ⟨r, hr, hrlt, hle, ?_⟩
  rw [seqAt_setCell, dataAt_setCell]
  by_cases hcell : r % c.toNat = pos.toNat % c.toNat
  · rw [if_pos hcell, if_pos hcell, seqAt_congr hcell] at *
    -- the claimed cell serves `pos` and no later position
    have hrp : r = pos.toNat := by
      rcases hcase with ⟨hs, -⟩ | ⟨hs, -⟩
      · omega
      · have : pos.toNat = r + 1 := by omega
        exact absurd (this ▸ hcell.symm) (c.succ_mod_ne c.exp_pos r)
    subst hrp
    exact .inr ⟨hsucc, hlt, fun _ => by rw [cell_data]; exact hdata⟩
  · rw [if_neg hcell, if_neg hcell]
    exact hcase

/-- The consumer of `pos` releases the cell for the next lap. -/
theorem SharedInv.release (inv : SharedInv c acc q) {pos : BitVec 64}
    (hlt : pos.toNat < q.dequeuePos.toNat) (hseq : seqAt c q pos.toNat = pos.toNat + 1) :
    SharedInv c acc (q.setCell c pos { q.cell c pos with sequence := pos + c.mask + 1#64 }) := by
  have hb := inv.bound
  have hde := inv.le
  have hlap : (pos + c.mask + 1#64).toNat = pos.toNat + c.toNat := toNat_add_lap (by omega)
  refine ⟨inv.enqueuePos, hde, hb, fun p => ?_⟩
  obtain ⟨r, hr, hrlt, hle, hcase⟩ := inv.cell p
  by_cases hcell : r % c.toNat = pos.toNat % c.toNat
  · rw [seqAt_congr hcell] at hcase
    -- the full cell serves `pos`
    have hrp : r = pos.toNat := by
      rcases hcase with ⟨hs, -⟩ | ⟨hs, -⟩
      · have : r = pos.toNat + 1 := by omega
        exact absurd (this ▸ hcell) (c.succ_mod_ne c.exp_pos pos.toNat)
      · omega
    subst hrp
    -- from now on it serves the position a lap later
    refine ⟨pos.toNat + c.toNat, by rw [Nat.add_mod_right, hr], ?_, ?_, .inl ⟨?_, ?_⟩⟩
    · simp only [setCell_dequeuePos]; omega
    · simp only [setCell_enqueuePos]; omega
    · rw [seqAt_setCell, if_pos (Nat.add_mod_right _ _)]; exact hlap
    · simp only [setCell_dequeuePos]; omega
  · refine ⟨r, hr, hrlt, hle, ?_⟩
    rw [seqAt_setCell, dataAt_setCell, if_neg hcell, if_neg hcell]
    exact hcase

end

end HopeThreading.MpmcBoundedQueue
