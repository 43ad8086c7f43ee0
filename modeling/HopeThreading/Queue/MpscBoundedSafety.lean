import HopeThreading.Queue.MpscBoundedInv

namespace HopeThreading.MpscBoundedQueue

open Transition

open MpmcBoundedQueue (Capacity)

/-!
# `mpsc_bounded_queue` — overfilling, and what holds without it

`try_enqueue` refuses only when `cur_head - m_tail > m_buffer_size`, so a check that finds the two
equal is passed, and the value goes to the cell of one that was not delivered (`overfull`).  In
every run in which no check finds them equal (`NoneFull`), the check does what it is for: the
ring is never overfilled (`notOverfilled_of_run`).  The hand-over by the flags is correct whenever
no claim is made of a full ring (`handOver_of_run`).
-/

variable {ι α : Type*}

section

variable {c : Capacity} {moved : α → α} {raw : Nat → α} {tr : List (Event ι α)}
  {s : Config (Option ι) (Shared α) (Local α)}

/-- The values accepted in a run are those of its pieces. -/
theorem accepted_append (tr es : List (Event ι α)) :
    accepted (tr ++ es) = accepted tr ++ accepted es := List.filterMap_append

/-- The values dequeued in a run are those of its pieces. -/
theorem dequeued_append (tr es : List (Event ι α)) :
    dequeued (tr ++ es) = dequeued tr ++ dequeued es := List.filterMap_append

/-- With the positions of the invariant, `m_head - m_tail` is the number of values inside. -/
theorem Inv.sub {acc del : List α} (inv : Inv c acc del s) :
    s.shared.head - s.shared.tail = BitVec.ofNat 64 (acc.length - del.length) := by
  have hle := inv.order.length_le
  rw [inv.head, inv.tail]
  conv_lhs => rw [← Nat.sub_add_cancel hle, BitVec.ofNat_add]
  exact BitVec.add_sub_cancel _ _

/-- A claim outside of the full ring finds room. -/
theorem Inv.room {acc del : List α} (inv : Inv c acc del s)
    (h : s.shared.head - s.shared.tail ≠ c.size) : acc.length < del.length + c.toNat := by
  have hfits := inv.fits
  by_contra hfull
  apply h
  rw [inv.sub, show acc.length - del.length = c.toNat by omega]
  apply BitVec.eq_of_toNat_eq
  rw [BitVec.toNat_ofNat, c.toNat_size, Nat.mod_eq_of_lt c.toNat_lt]

variable [DecidableEq ι]

/-- **Producers.** -/
theorem Inv.tryEnqueue_step {acc del : List α} (inv : Inv c acc del s) {t : ι} {v : α}
    {pc : EnqueuePc} {q : Shared α} {l : Local α} {es : List (Event ι α)}
    (hl : s.threads (some t) = .enqueue v pc)
    (hok : exchanging (s.threads (some t)) = some s.shared.head →
      s.shared.head - s.shared.tail ≠ c.size)
    (h : (q, l, es) = tryEnqueue c s.shared t v pc) :
    Inv c (acc ++ accepted es) (del ++ dequeued es) (s.set (some t) q l) := by
  cases pc with
  | loadHead =>
    cases h
    simp only [accepted, dequeued, List.filterMap_nil, List.append_nil]
    exact inv.quiet (by rw [hl]; rfl) (by rw [hl]; rfl) (by rw [hl]; rfl) trivial
  | compareTail pos =>
    simp only [tryEnqueue] at h
    split at h <;> cases h <;>
      simp only [accepted, dequeued, List.filterMap_nil, List.filterMap_cons, List.append_nil] <;>
      exact inv.quiet (by rw [hl]; rfl) (by rw [hl]; rfl) (by rw [hl]; rfl) trivial
  | exchange pos =>
    simp only [tryEnqueue] at h
    split at h
    · rename_i heq
      cases h
      simp only [accepted, dequeued, List.filterMap_nil, List.filterMap_cons, List.append_nil]
      -- the exchange succeeds, and there is room because the queue is not full
      rw [← heq] at hl ⊢
      exact inv.claim hl (inv.room (hok (by rw [hl]; rfl)))
    · cases h
      simp only [accepted, dequeued, List.filterMap_nil, List.append_nil]
      exact inv.quiet (by rw [hl]; rfl) (by rw [hl]; rfl) (by rw [hl]; rfl) trivial
  | writeValue pos =>
    cases h
    simp only [accepted, dequeued, List.filterMap_nil, List.append_nil]
    exact inv.write hl
  | storeReady pos =>
    cases h
    simp only [accepted, dequeued, List.filterMap_nil, List.filterMap_cons, List.append_nil]
    exact inv.publish hl

/-- **The consumer.** -/
theorem Inv.tryDequeue_step {acc del : List α} (inv : Inv c acc del s) {pc : DequeuePc α}
    {q : Shared α} {l : Local α} {es : List (Event ι α)} (hl : s.threads none = .dequeue pc)
    (h : (q, l, es) = tryDequeue c moved s.shared pc) :
    Inv c (acc ++ accepted es) (del ++ dequeued es) (s.set none q l) := by
  have hN := c.toNat_pos
  cases pc with
  | loadHead =>
    simp only [tryDequeue] at h
    split at h <;> cases h <;>
      simp only [accepted, dequeued, List.filterMap_nil, List.filterMap_cons, List.append_nil]
    · exact inv.quiet (by rw [hl]; rfl) (by rw [hl]; rfl) (by rw [hl]; rfl) trivial
    · rename_i hne
      refine inv.quiet (by rw [hl]; rfl) (by rw [hl]; rfl) (by rw [hl]; rfl) ?_
      -- different words are different positions
      rcases Nat.eq_or_lt_of_le inv.order.length_le with heq | hlt
      · exact absurd (by rw [inv.head, inv.tail, heq]) hne
      · exact hlt
  | loadReady =>
    simp only [tryDequeue] at h
    split at h <;> cases h <;>
      simp only [accepted, dequeued, List.filterMap_nil, List.filterMap_cons, List.append_nil]
    · exact inv.quiet (by rw [hl]; rfl) (by rw [hl]; rfl) (by rw [hl]; rfl) trivial
    · rename_i hready
      refine inv.quiet (by rw [hl]; rfl) (by rw [hl]; rfl) (by rw [hl]; rfl) ?_
      rw [inv.tail, cell_ofNat] at hready
      exact (inv.cell del.length le_rfl (by omega)).1.mp (by simpa using hready)
  | readValue =>
    cases h
    simp only [accepted, dequeued, List.filterMap_nil, List.append_nil]
    exact inv.take moved hl
  | clearReady v =>
    cases h
    simp only [accepted, dequeued, List.filterMap_nil, List.append_nil]
    exact inv.clear hl
  | incrementTail v =>
    cases h
    simp only [accepted, dequeued, List.filterMap_nil, List.filterMap_cons, List.append_nil]
    exact inv.deliver hl

/-- **Step lemma.** A step keeps the invariant unless it is a claim while the ring is full. -/
theorem Inv.step {acc del : List α} (inv : Inv c acc del s) {u : Option ι} {k : Label α}
    {q : Shared α} {l : Local α} {es : List (Event ι α)}
    (hok : exchanging (s.threads u) = some s.shared.head →
      s.shared.head - s.shared.tail ≠ c.size)
    (h : next c moved u s.shared (s.threads u) k = some (q, l, es)) :
    Inv c (acc ++ accepted es) (del ++ dequeued es) (s.set u q l) := by
  rcases next_cases h with ⟨hl, rfl, rfl, hcall⟩ | ⟨t, v, pc, rfl, hl, heq⟩ | ⟨pc, rfl, hl, heq⟩
  · simp only [accepted, dequeued, List.filterMap_nil, List.append_nil]
    rcases hcall with ⟨t, v, rfl, rfl⟩ | ⟨rfl, rfl⟩ <;>
      exact inv.quiet (by rw [hl]; rfl) (by rw [hl]; rfl) (by rw [hl]; rfl) trivial
  · exact inv.tryEnqueue_step hl hok heq
  · exact inv.tryDequeue_step hl heq

/-- The invariant holds at the beginning. -/
theorem inv_init : Inv c [] [] (program ι c moved raw).machine.init := by
  refine ⟨rfl, rfl, Nat.zero_le _, List.prefix_rfl, fun p _ _ => ?_, fun u => ?_, ?_⟩
  · have hnot : ¬ Published ([] : List α) 0 (program ι c moved raw).machine.init.threads p :=
      fun h => absurd h.2.1 (Nat.not_lt_zero p)
    exact ⟨⟨fun h => absurd h Bool.false_ne_true, fun h => absurd h hnot⟩,
      fun h => absurd h hnot⟩
  · cases u <;> trivial
  · intro t u k h
    exact absurd h (by simp [holding, Program.machine, program])

/-- **Run lemma.** -/
theorem Inv.of_run (run : (program ι c moved raw).machine.RunIf (NotFull c) tr s) :
    Inv c (accepted tr) (dequeued tr) s := by
  refine Program.invariant (I := fun tr s => Inv c (accepted tr) (dequeued tr) s) inv_init ?_ run
  intro tr s u k q l es inv hok h
  rw [accepted_append, dequeued_append]
  exact inv.step hok h

end

/-! ### The check -/

/-- The `cur_head` that a producer compares with `m_tail` next. -/
def comparing : Local α → Option (BitVec 64)
  | .enqueue _ (.compareTail curHead) => some curHead
  | _ => none

/-- A check of a producer does not find `cur_head - m_tail` equal to `m_buffer_size`. -/
def NoneFull (c : Capacity) (s : Config (Option ι) (Shared α) (Local α))
    (a : Option ι × Label α) : Prop :=
  ∀ curHead ∈ comparing (s.threads a.1), curHead - s.shared.tail ≠ c.size

instance (c : Capacity) (s : Config (Option ι) (Shared α) (Local α)) (a : Option ι × Label α) :
    Decidable (NoneFull c s a) :=
  -- the instance for words would try every word
  Option.decidableForallMem _

/-- What a producer knows of the position it has loaded: it was `m_head` once, and when it was
    compared, `m_tail` was less than one lap behind it. -/
def Checked (c : Capacity) (acc del : Nat) : Local α → Prop
  | .enqueue _ (.compareTail curHead) => ∃ p, p ≤ acc ∧ curHead = BitVec.ofNat 64 p
  | .enqueue _ (.exchange curHead) => ∃ p m, p ≤ acc ∧ m ≤ del ∧ curHead = BitVec.ofNat 64 p ∧
      BitVec.ofNat 64 p - BitVec.ofNat 64 m < c.size
  | _ => True

section

variable {c : Capacity} {moved : α → α} {raw : Nat → α} {tr : List (Event ι α)}
  {s : Config (Option ι) (Shared α) (Local α)} {acc del acc' del' : Nat} {l : Local α}

/-- What a producer knows of its position stays true when the queue goes on. -/
theorem Checked.mono (h : Checked c acc del l) (hacc : acc ≤ acc') (hdel : del ≤ del') :
    Checked c acc' del' l := by
  unfold Checked at h ⊢
  split at h
  · obtain ⟨p, hp, heq⟩ := h
    exact ⟨p, hp.trans hacc, heq⟩
  · obtain ⟨p, m, hp, hm, heq, hlt⟩ := h
    exact ⟨p, m, hp.trans hacc, hm.trans hdel, heq, hlt⟩
  · trivial

/-- **The check.** The producer keeps to what it has loaded, and goes on to the exchange only when
    the comparison says that there is room. -/
theorem Inv.checked_step {acc del : List α} (inv : Inv c acc del s) {u : Option ι} {k : Label α}
    {q : Shared α} {l : Local α} {es : List (Event ι α)} (hok : NoneFull c s (u, k))
    (hu : Checked c acc.length del.length (s.threads u))
    (h : next c moved u s.shared (s.threads u) k = some (q, l, es)) :
    Checked c acc.length del.length l := by
  rcases next_cases h with ⟨hl, rfl, rfl, hcall⟩ | ⟨t, v, pc, rfl, hl, heq⟩ | ⟨pc, rfl, hl, heq⟩
  · rcases hcall with ⟨t, v, rfl, rfl⟩ | ⟨rfl, rfl⟩ <;> trivial
  · cases pc with
    | loadHead => cases heq; exact ⟨_, le_rfl, inv.head⟩
    | compareTail curHead =>
      have hne : curHead - s.shared.tail ≠ c.size := hok curHead (by rw [hl]; rfl)
      rw [hl] at hu
      obtain ⟨p, hp, rfl⟩ := hu
      simp only [tryEnqueue] at heq
      split at heq
      · cases heq
        trivial
      · rename_i hle
        cases heq
        rw [inv.tail] at hne hle
        exact ⟨p, _, hp, le_rfl, rfl, BitVec.lt_of_le_ne (BitVec.not_lt.mp hle) hne⟩
    | exchange curHead =>
      simp only [tryEnqueue] at heq
      split at heq <;> cases heq
      · trivial
      · exact ⟨_, le_rfl, inv.head⟩
    | writeValue curHead => cases heq; trivial
    | storeReady curHead => cases heq; trivial
  · cases pc with
    | loadHead => simp only [tryDequeue] at heq; split at heq <;> cases heq <;> trivial
    | loadReady => simp only [tryDequeue] at heq; split at heq <;> cases heq <;> trivial
    | readValue => cases heq; trivial
    | clearReady v => cases heq; trivial
    | incrementTail v => cases heq; trivial

/-- **The exchange.** With fewer than `2 ^ 64` values so far, a claim comes from a check of the
    position that is claimed, so that the ring is not full. -/
theorem Inv.not_full {acc del : List α} (inv : Inv c acc del s) (hbound : acc.length < 2 ^ 64)
    {u : Option ι} (hu : Checked c acc.length del.length (s.threads u))
    (hex : exchanging (s.threads u) = some s.shared.head) :
    s.shared.head - s.shared.tail ≠ c.size := by
  have hle := inv.order.length_le
  have hlt := c.toNat_lt
  unfold exchanging at hex
  split at hex
  · rename_i v curHead hl
    rw [hl] at hu
    obtain ⟨p, m, hp, hm, hpos, hroom⟩ := hu
    -- the word of the checked position is that of the next one, and so is the position
    have hword : BitVec.ofNat 64 p = BitVec.ofNat 64 acc.length := by
      rw [← hpos, Option.some.inj hex, inv.head]
    have heq : p = acc.length := by
      have hnat := congrArg BitVec.toNat hword
      rwa [BitVec.toNat_ofNat, BitVec.toNat_ofNat, Nat.mod_eq_of_lt (by omega),
        Nat.mod_eq_of_lt hbound] at hnat
    subst heq
    have hsub : (BitVec.ofNat 64 acc.length - BitVec.ofNat 64 m).toNat = acc.length - m := by
      rw [BitVec.toNat_sub, BitVec.toNat_ofNat, BitVec.toNat_ofNat]
      omega
    rw [BitVec.lt_def, hsub, c.toNat_size] at hroom
    intro hfull
    have hcount := congrArg BitVec.toNat hfull
    rw [inv.sub, BitVec.toNat_ofNat, c.toNat_size, Nat.mod_eq_of_lt (by omega)] at hcount
    omega
  · exact absurd hex (by simp)

/-! ### The bound -/

/-- No cell is used again before its value is delivered. -/
structure NotOverfilled (c : Capacity) (tr : List (Event ι α))
    (s : Config (Option ι) (Shared α) (Local α)) : Prop where
  words : (s.shared.head - s.shared.tail).toNat ≤ c.toNat
  count : (accepted tr).length ≤ (dequeued tr).length + c.toNat
  /-- The value before the last one in a cell was delivered. -/
  taken : ∀ p, p + c.toNat < (accepted tr).length →
    ∃ v, (accepted tr)[p]? = some v ∧ (dequeued tr)[p]? = some v

/-- Under the invariant no exchange takes more than the capacity. -/
theorem Inv.notOverfilled (inv : Inv c (accepted tr) (dequeued tr) s) : NotOverfilled c tr s := by
  have hfits := inv.fits
  refine ⟨?_, hfits, fun p hp => ?_⟩
  · have hlt := c.toNat_lt
    rw [inv.sub, BitVec.toNat_ofNat, Nat.mod_eq_of_lt (by omega)]
    omega
  · have hdel : p < (dequeued tr).length := by omega
    have hget := List.getElem?_eq_getElem hdel
    exact ⟨_, getElem?_mono inv.order hget, hget⟩

/-- **The bound.** In every run with fewer than `2 ^ 64` accepted values in which no check of a
    producer finds `cur_head - m_tail` equal to `m_buffer_size`. -/
theorem notOverfilled_of_run [DecidableEq ι]
    (run : (program ι c moved raw).machine.RunIf (NoneFull c) tr s)
    (hbound : (accepted tr).length < 2 ^ 64) : NotOverfilled c tr s := by
  suffices hinv : Inv c (accepted tr) (dequeued tr) s ∧
      ∀ u, Checked c (accepted tr).length (dequeued tr).length (s.threads u) from
    hinv.1.notOverfilled
  refine Program.invariant (P := program ι c moved raw)
    (I := fun tr s => (accepted tr).length < 2 ^ 64 → Inv c (accepted tr) (dequeued tr) s ∧
      ∀ u, Checked c (accepted tr).length (dequeued tr).length (s.threads u))
    (fun _ => ⟨inv_init, fun _ => trivial⟩) ?_ run hbound
  intro tr s u k q l es hinv hok h hbound
  rw [accepted_append, List.length_append] at hbound
  obtain ⟨inv, hchecked⟩ := hinv (by omega)
  -- the invariants are kept by the step, whether it is a check, a claim or neither
  have hstep := inv.step (inv.not_full (by omega) (hchecked u)) h
  have hself := inv.checked_step hok (hchecked u) h
  rw [accepted_append, dequeued_append, List.length_append, List.length_append]
  refine ⟨hstep, Config.set_forall ?_ fun v _ => ?_⟩
  · exact hself.mono (Nat.le_add_right _ _) (Nat.le_add_right _ _)
  · exact (hchecked v).mono (Nat.le_add_right _ _) (Nat.le_add_right _ _)

end

/-- Two cells, each of them used, and the first one a second time. -/
theorem notOverfilled_of_run_two : ∃ tr s,
    (program (Fin 1) ⟨⟨1, by decide⟩, by decide⟩ (fun v : Nat => v) fun _ => 0).machine.RunIf
      (NoneFull ⟨⟨1, by decide⟩, by decide⟩) tr s ∧
      accepted tr = [10, 20, 30] ∧ dequeued tr = [10] ∧
      NotOverfilled ⟨⟨1, by decide⟩, by decide⟩ tr s := by
  obtain ⟨tr, s, run, hacc, hdeq⟩ := Machine.exists_runIf
    (M := (program (Fin 1) ⟨⟨1, by decide⟩, by decide⟩ (fun v : Nat => v) fun _ => 0).machine)
    (A := NoneFull ⟨⟨1, by decide⟩, by decide⟩)
    (P := fun tr _ => accepted tr = [10, 20, 30] ∧ dequeued tr = [10])
    ((some 0, Label.tryEnqueue 10) :: List.replicate 5 (some 0, Label.step) ++
      (some 0, Label.tryEnqueue 20) :: List.replicate 5 (some 0, Label.step) ++
      (none, Label.tryDequeue) :: List.replicate 5 (none, Label.step) ++
      (some 0, Label.tryEnqueue 30) :: List.replicate 5 (some 0, Label.step)) (by decide +kernel)
  exact ⟨tr, s, run, hacc, hdeq, notOverfilled_of_run run (by rw [hacc]; decide)⟩

/-- **The full ring.** A third value is accepted into two cells, over the first one. -/
theorem overfull : ∃ tr s,
    (program (Fin 1) ⟨⟨1, by decide⟩, by decide⟩ (fun v : Nat => v) fun _ => 0).machine.Run tr s ∧
      accepted tr = [10, 20, 30] ∧ dequeued tr = [] ∧ (s.shared.buffer 0).value = 30 ∧
      ¬ NotOverfilled ⟨⟨1, by decide⟩, by decide⟩ tr s := by
  obtain ⟨tr, s, run, hacc, hdeq, hcell⟩ := Machine.exists_run
    (M := (program (Fin 1) ⟨⟨1, by decide⟩, by decide⟩ (fun v : Nat => v) fun _ => 0).machine)
    (P := fun tr s => accepted tr = [10, 20, 30] ∧ dequeued tr = [] ∧
      (s.shared.buffer 0).value = 30)
    ((some 0, Label.tryEnqueue 10) :: List.replicate 5 (some 0, Label.step) ++
      (some 0, Label.tryEnqueue 20) :: List.replicate 5 (some 0, Label.step) ++
      (some 0, Label.tryEnqueue 30) :: List.replicate 5 (some 0, Label.step)) (by decide +kernel)
  refine ⟨tr, s, run, hacc, hdeq, hcell, fun h => ?_⟩
  have := h.count
  rw [hacc, hdeq] at this
  exact absurd this (by decide)

/-! ### The hand-over -/

/-- The cell a producer has claimed and not published yet. -/
def producing (c : Capacity) (l : Local α) : Option Nat :=
  (holding l).map fun pos => (pos &&& c.mask).toNat

/-- What the flags do for the cells and the values. -/
structure HandOver (c : Capacity) (tr : List (Event ι α))
    (s : Config (Option ι) (Shared α) (Local α)) : Prop where
  /-- No two producers are at the same cell … -/
  producers : Exclusive (producing c) s.threads
  /-- … nor is a producer at the cell of the consumer. -/
  consumer : consuming (s.threads none) = true → ∀ t,
    producing c (s.threads t) ≠ some (s.shared.tail &&& c.mask).toNat
  /-- The flag of a cell is set for the positions that are claimed, published and not
      consumed. -/
  ready : ∀ i, i < c.toNat → ((s.shared.buffer i).ready = true ↔
    ∃ p, p % c.toNat = i ∧ Published (accepted tr) (dequeued tr).length s.threads p)
  order : dequeued tr <+: accepted tr

section

variable [DecidableEq ι] {c : Capacity} {tr : List (Event ι α)}
  {s : Config (Option ι) (Shared α) (Local α)}

omit [DecidableEq ι] in
/-- A producer at a cell holds a position of the lap. -/
theorem Inv.producing {acc del : List α} (inv : Inv c acc del s) {t : Option ι} {i : Nat}
    (h : producing c (s.threads t) = some i) :
    ∃ p, holding (s.threads t) = some (BitVec.ofNat 64 p) ∧ p % c.toNat = i ∧
      del.length ≤ p ∧ p < del.length + c.toNat := by
  obtain ⟨pos, hpos, rfl⟩ := Option.map_eq_some_iff.mp h
  obtain ⟨p, rfl, hle, hlt⟩ := inv.held hpos
  have hfits := inv.fits
  exact ⟨p, hpos, by rw [c.toNat_and_mask, c.ofNat_mod], hle, by omega⟩

/-- **The hand-over.** In every run in which each compare-exchange that succeeds does so
    with `m_head - m_tail` below `Size`. -/
theorem handOver_of_run {moved : α → α} {raw : Nat → α}
    (run : (program ι c moved raw).machine.RunIf (HasRoom c) tr s) : HandOver c tr s := by
  have inv := Inv.of_run (run.mono fun _ _ => NotFull.of_hasRoom)
  have hN := c.toNat_pos
  refine ⟨fun t u i ht hu => ?_, fun hcons t ht => ?_, fun i hi => ?_, inv.order⟩
  · obtain ⟨p, hp, hpi, hple, hplt⟩ := inv.producing ht
    obtain ⟨r, hr, hri, hrle, hrlt⟩ := inv.producing hu
    obtain rfl := c.eq_of_mod_eq ⟨hple, hplt⟩ ⟨hrle, hrlt⟩ (hpi.trans hri.symm)
    exact inv.apart hp hr
  · obtain ⟨p, hp, hpi, hple, hplt⟩ := inv.producing ht
    rw [inv.tail, c.toNat_and_mask, c.ofNat_mod] at hpi
    obtain rfl := c.eq_of_mod_eq ⟨hple, hplt⟩ ⟨le_rfl, by omega⟩ hpi
    -- where the consumer is, no producer is left
    have hinv := inv.locals none
    unfold LocalInv at hinv
    cases hl : s.threads none with
    | idle => rw [hl] at hcons; exact absurd hcons (by simp [consuming])
    | enqueue v pc => rw [hl] at hcons; exact absurd hcons (by simp [consuming])
    | dequeue pc =>
      rw [hl] at hcons hinv
      cases pc with
      | loadHead => exact absurd hcons (by simp [consuming])
      | loadReady => exact absurd hcons (by simp [consuming])
      | readValue => exact hinv.2.2.1 t hp
      | clearReady v => exact hinv.1.2.2.1 t hp
      | incrementTail v => exact hinv.2.1 t hp
  · have hfits := inv.fits
    constructor
    · intro h
      obtain ⟨p, hle, hlt, rfl⟩ := c.exists_mod_eq (dequeued tr).length hi
      exact ⟨p, rfl, (inv.cell p hle hlt).1.mp h⟩
    · rintro ⟨p, rfl, hpub⟩
      exact (inv.cell p hpub.1 (by have := hpub.2.1; omega)).1.mpr hpub

end

/-- The second producer publishes first, and the consumer waits for the first one. -/
theorem handOver_of_run_two : ∃ tr s,
    (program (Fin 2) ⟨⟨1, by decide⟩, by decide⟩ (fun v : Nat => v) fun _ => 0).machine.RunIf
      (HasRoom ⟨⟨1, by decide⟩, by decide⟩) tr s ∧
      accepted tr = [10, 20] ∧ dequeued tr = [10] ∧ consuming (s.threads none) = true ∧
      HandOver ⟨⟨1, by decide⟩, by decide⟩ tr s := by
  obtain ⟨tr, s, run, hacc, hdeq, hcons⟩ := Machine.exists_runIf
    (M := (program (Fin 2) ⟨⟨1, by decide⟩, by decide⟩ (fun v : Nat => v) fun _ => 0).machine)
    (A := HasRoom ⟨⟨1, by decide⟩, by decide⟩)
    (P := fun tr s => accepted tr = [10, 20] ∧ dequeued tr = [10] ∧
      consuming (s.threads none) = true)
    ((some 0, Label.tryEnqueue 10) :: List.replicate 3 (some 0, Label.step) ++
      (some 1, Label.tryEnqueue 20) :: List.replicate 5 (some 1, Label.step) ++
      (none, Label.tryDequeue) :: List.replicate 2 (none, Label.step) ++
      List.replicate 2 (some 0, Label.step) ++ (none, Label.tryDequeue) ::
      List.replicate 5 (none, Label.step) ++ (none, Label.tryDequeue) ::
      List.replicate 3 (none, Label.step)) (by decide +kernel)
  exact ⟨tr, s, run, hacc, hdeq, hcons, handOver_of_run run⟩

end HopeThreading.MpscBoundedQueue
