import HopeThreading.Queue.MpscBounded
import HopeThreading.Transition.Fifo
import HopeThreading.Transition.Threads

namespace HopeThreading.MpscBoundedQueue

open Transition

open MpmcBoundedQueue (Capacity)

/-!
# `mpsc_bounded_queue` — the invariant

Positions are counted as natural numbers: `n` accepted and `m` delivered values mean
`m_head = n` and `m_tail = m` as words.  As long as no producer wins a position while the
ring is full (`NotFull`), the positions in use are within one lap of `m`, so that a word and
a cell stand for one of them only; `MpscBoundedSafety` derives this from the check.
`CellInv` says when the cell of a position is ready; the flag is one bit, so this depends on
who is where (`holding`, `clearing`).
-/

variable {ι α : Type*}

/-! ### The condition -/

/-- The value a producer is about to exchange `m_head` with. -/
def exchanging : Local α → Option (BitVec 64)
  | .enqueue _ (.exchange curHead) => some curHead
  | _ => none

/-- A compare-exchange that succeeds does so with `m_head - m_tail` other than
    `m_buffer_size`. -/
def NotFull (c : Capacity) (s : Config (Option ι) (Shared α) (Local α)) (a : Option ι × Label α) :
    Prop :=
  exchanging (s.threads a.1) = some s.shared.head → s.shared.head - s.shared.tail ≠ c.size

/-- A compare-exchange that succeeds does so with `m_head - m_tail` below `Size`. -/
def HasRoom (c : Capacity) (s : Config (Option ι) (Shared α) (Local α)) (a : Option ι × Label α) :
    Prop :=
  exchanging (s.threads a.1) = some s.shared.head → s.shared.head - s.shared.tail < c.size

instance (c : Capacity) (s : Config (Option ι) (Shared α) (Local α)) (a : Option ι × Label α) :
    Decidable (NotFull c s a) := inferInstanceAs (Decidable (_ → _))

instance (c : Capacity) (s : Config (Option ι) (Shared α) (Local α)) (a : Option ι × Label α) :
    Decidable (HasRoom c s a) := inferInstanceAs (Decidable (_ → _))

/-- Where the check has found room, the exchange does not take more than the capacity. -/
theorem NotFull.of_hasRoom {c : Capacity} {s : Config (Option ι) (Shared α) (Local α)}
    {a : Option ι × Label α} (h : HasRoom c s a) : NotFull c s a := fun hex hfull => by
  have := h hex
  rw [hfull] at this
  exact absurd this (BitVec.lt_irrefl _)

/-! ### Who is at a cell -/

/-- The position a producer has claimed and not published yet. -/
def holding : Local α → Option (BitVec 64)
  | .enqueue _ (.writeValue curHead) => some curHead
  | .enqueue _ (.storeReady curHead) => some curHead
  | _ => none

/-- The consumer has seen the flag of the cell at `m_tail` and not advanced `m_tail` yet. -/
def consuming : Local α → Bool
  | .dequeue .readValue | .dequeue (.clearReady _) | .dequeue (.incrementTail _) => true
  | _ => false

/-- The consumer has cleared the flag of the cell at `m_tail`. -/
def cleared : Local α → Bool
  | .dequeue (.incrementTail _) => true
  | _ => false

/-- The consumer has moved the value out of the cell at `m_tail`. -/
def emptied : Local α → Bool
  | .dequeue (.clearReady _) => true
  | _ => false

section

variable (c : Capacity) (acc : List α) (m : Nat) (q : Shared α) (threads : Option ι → Local α)

/-- Position `p` is claimed and published, and the consumer has not cleared it. -/
def Published (p : Nat) : Prop :=
  m ≤ p ∧ p < acc.length ∧ (∀ t, holding (threads t) ≠ some (BitVec.ofNat 64 p)) ∧
    ¬ (p = m ∧ cleared (threads none) = true)

/-- The cell of position `p`. -/
def CellInv (p : Nat) : Prop :=
  ((q.buffer (p % c.toNat)).ready = true ↔ Published acc m threads p) ∧
  (Published acc m threads p → ¬ (p = m ∧ emptied (threads none) = true) →
    acc[p]? = some (q.buffer (p % c.toNat)).value)

/-- What a producer relies on between two of its accesses. -/
def ProducerInv : Local α → Prop
  | .enqueue v (.writeValue curHead) =>
    ∃ p, curHead = BitVec.ofNat 64 p ∧ m ≤ p ∧ p < acc.length ∧ acc[p]? = some v
  | .enqueue v (.storeReady curHead) =>
    ∃ p, curHead = BitVec.ofNat 64 p ∧ m ≤ p ∧ p < acc.length ∧ acc[p]? = some v ∧
      (q.buffer (p % c.toNat)).value = v
  | .dequeue _ => False
  | _ => True

/-- What the consumer relies on. -/
def ConsumerInv : Local α → Prop
  | .dequeue .loadHead => True
  | .dequeue .loadReady => m < acc.length
  | .dequeue .readValue => Published acc m threads m
  | .dequeue (.clearReady v) => Published acc m threads m ∧ acc[m]? = some v
  | .dequeue (.incrementTail v) =>
    m < acc.length ∧ (∀ t, holding (threads t) ≠ some (BitVec.ofNat 64 m)) ∧ acc[m]? = some v
  | .enqueue _ _ => False
  | .idle => True

/-- The consumer is the thread `none`. -/
def LocalInv : Option ι → Local α → Prop
  | some _ => ProducerInv c acc m q
  | none => ConsumerInv acc m threads

end

/-- The invariant of the whole system, for the values accepted and delivered so far. -/
structure Inv (c : Capacity) (acc del : List α) (s : Config (Option ι) (Shared α) (Local α)) :
    Prop where
  head : s.shared.head = BitVec.ofNat 64 acc.length
  tail : s.shared.tail = BitVec.ofNat 64 del.length
  fits : acc.length ≤ del.length + c.toNat
  order : del <+: acc
  cell : ∀ p, del.length ≤ p → p < del.length + c.toNat →
    CellInv c acc del.length s.shared s.threads p
  locals : ∀ u, LocalInv c acc del.length s.shared s.threads u (s.threads u)
  apart : Exclusive holding s.threads

/-! ### Cells and positions -/

section

variable {c : Capacity} {acc : List α} {m p r : Nat} {q : Shared α}
  {threads threads' : Option ι → Local α}

/-- The cell of a position as a number. -/
theorem cell_ofNat (p : Nat) : q.cell c (BitVec.ofNat 64 p) = q.buffer (p % c.toNat) := by
  rw [Shared.cell, c.toNat_and_mask, c.ofNat_mod]

/-- Within one lap, overwriting the cell of `r` changes that of `p` only for `p = r`. -/
theorem buffer_setCell (hp : m ≤ p ∧ p < m + c.toNat) (hr : m ≤ r ∧ r < m + c.toNat) (x : Cell α) :
    (q.setCell c (BitVec.ofNat 64 r) x).buffer (p % c.toNat) =
      if p = r then x else q.buffer (p % c.toNat) := by
  have hslot : p % c.toNat = r % c.toNat ↔ p = r :=
    ⟨c.eq_of_mod_eq hp hr, fun h => by rw [h]⟩
  simp only [Shared.setCell, c.toNat_and_mask, c.ofNat_mod, Function.update_apply, hslot]

/-- `Published` depends on the threads only by what they hold. -/
theorem published_congr (hhold : ∀ t, holding (threads' t) = holding (threads t))
    (hcleared : cleared (threads' none) = cleared (threads none)) :
    Published acc m threads' p ↔ Published acc m threads p := by
  simp only [Published, hhold, hcleared]

end

/-! ### One access keeps the invariant -/

section

variable {c : Capacity} {acc del : List α} {s : Config (Option ι) (Shared α) (Local α)}
  {l : Local α}

/-- What the consumer relies on, it can rely on while its position stays published and
    without a producer. -/
theorem ConsumerInv.mono {acc' : List α} {m : Nat} {threads threads' : Option ι → Local α}
    (hacc : acc <+: acc') (hpub : Published acc m threads m → Published acc' m threads' m)
    (hunheld : m < acc.length → (∀ t, holding (threads t) ≠ some (BitVec.ofNat 64 m)) →
      ∀ t, holding (threads' t) ≠ some (BitVec.ofNat 64 m))
    (h : ConsumerInv acc m threads l) : ConsumerInv acc' m threads' l := by
  cases l with
  | idle => trivial
  | enqueue v pc => exact h
  | dequeue pc =>
    cases pc with
    | loadHead => trivial
    | loadReady => exact lt_of_lt_of_le h hacc.length_le
    | readValue => exact hpub h
    | clearReady v => exact ⟨hpub h.1, getElem?_mono hacc h.2⟩
    | incrementTail v =>
      exact ⟨h.1.trans_le hacc.length_le, hunheld h.1 h.2.1, getElem?_mono hacc h.2.2⟩

/-- More accepted values change nothing for a producer. -/
theorem ProducerInv.mono {acc' : List α} {m : Nat} {q : Shared α} (hacc : acc <+: acc')
    (h : ProducerInv c acc m q l) : ProducerInv c acc' m q l := by
  unfold ProducerInv at h ⊢
  split at h
  · obtain ⟨p, hp, hle, hlt, hv⟩ := h
    exact ⟨p, hp, hle, hlt.trans_le hacc.length_le, getElem?_mono hacc hv⟩
  · obtain ⟨p, hp, hle, hlt, hv, hcell⟩ := h
    exact ⟨p, hp, hle, hlt.trans_le hacc.length_le, getElem?_mono hacc hv, hcell⟩
  · exact h
  · trivial

/-- What a producer holds is accepted and not delivered. -/
theorem Inv.held (inv : Inv c acc del s) {u : Option ι} {pos : BitVec 64}
    (h : holding (s.threads u) = some pos) :
    ∃ p, pos = BitVec.ofNat 64 p ∧ del.length ≤ p ∧ p < acc.length := by
  have hu := inv.locals u
  -- a position is held between the claim and the publication
  cases u with
  | none =>
    unfold LocalInv ConsumerInv at hu
    cases hl : s.threads none <;> rw [hl] at h hu
    case idle => exact absurd h (by simp [holding])
    case enqueue => exact absurd hu (by simp)
    case dequeue => exact absurd h (by simp [holding])
  | some t =>
    unfold LocalInv ProducerInv at hu
    unfold holding at h
    split at h
    · rename_i hl
      rw [hl] at hu
      obtain ⟨p, hp, hle, hlt, -⟩ := hu
      exact ⟨p, by rw [← Option.some.inj h, hp], hle, hlt⟩
    · rename_i hl
      rw [hl] at hu
      obtain ⟨p, hp, hle, hlt, -⟩ := hu
      exact ⟨p, by rw [← Option.some.inj h, hp], hle, hlt⟩
    · exact absurd h (by simp)

variable [DecidableEq ι]

/-- A move that leaves the queue alone, and nobody at a cell that was not there before. -/
theorem Inv.quiet (inv : Inv c acc del s) {u : Option ι}
    (hhold : holding l = holding (s.threads u)) (hcleared : cleared l = cleared (s.threads u))
    (hemptied : emptied l = emptied (s.threads u))
    (hl : LocalInv c acc del.length s.shared s.threads u l) :
    Inv c acc del (s.set u s.shared l) := by
  have hholds : ∀ t, holding ((s.set u s.shared l).threads t) = holding (s.threads t) :=
    Config.set_map holding hhold
  have hcl : cleared ((s.set u s.shared l).threads none) = cleared (s.threads none) :=
    Config.set_map cleared hcleared none
  have hem : emptied ((s.set u s.shared l).threads none) = emptied (s.threads none) :=
    Config.set_map emptied hemptied none
  have hpub : ∀ p, Published acc del.length (s.set u s.shared l).threads p ↔
      Published acc del.length s.threads p := fun p => published_congr hholds hcl
  have hunheld : (∀ t, holding (s.threads t) ≠ some (BitVec.ofNat 64 del.length)) →
      ∀ t, holding ((s.set u s.shared l).threads t) ≠ some (BitVec.ofNat 64 del.length) :=
    fun h t => by
      rw [hholds t]
      exact h t
  refine ⟨inv.head, inv.tail, inv.fits, inv.order, ?_, ?_, inv.apart.keep hhold⟩
  · intro p hle hlt
    obtain ⟨hready, hvalue⟩ := inv.cell p hle hlt
    refine ⟨hready.trans (hpub p).symm, fun hp hne => hvalue ((hpub p).mp hp) ?_⟩
    rwa [hem] at hne
  · refine Config.set_forall ?_ fun v _ => ?_
    · cases u with
      | none => exact ConsumerInv.mono List.prefix_rfl (hpub _).mpr (fun _ => hunheld) hl
      | some t => exact hl
    · have hv := inv.locals v
      cases v with
      | none => exact ConsumerInv.mono List.prefix_rfl (hpub _).mpr (fun _ => hunheld) hv
      | some t => exact hv

omit [DecidableEq ι] in
/-- Nobody holds a position before it is claimed. -/
theorem Inv.not_held (inv : Inv c acc del s) (hroom : acc.length < del.length + c.toNat)
    (u : Option ι) : holding (s.threads u) ≠ some (BitVec.ofNat 64 acc.length) := fun h => by
  obtain ⟨p, hp, hle, hlt⟩ := inv.held h
  have hle' := inv.order.length_le
  have := c.eq_of_ofNat_eq ⟨hle', hroom⟩ ⟨hle, by omega⟩ hp
  omega

/-- **A claim.** With room in the ring a producer takes the next position. -/
theorem Inv.claim (inv : Inv c acc del s) {t : ι} {v : α}
    (hl : s.threads (some t) = .enqueue v (.exchange s.shared.head))
    (hroom : acc.length < del.length + c.toNat) :
    Inv c (acc ++ [v]) del (s.set (some t) { s.shared with head := s.shared.head + 1#64 }
      (.enqueue v (.writeValue s.shared.head))) := by
  have hle := inv.order.length_le
  have hlen : (acc ++ [v]).length = acc.length + 1 := by simp
  have hget : ∀ {p : Nat} {w : α}, acc[p]? = some w → (acc ++ [v])[p]? = some w := fun hp =>
    getElem?_mono (List.prefix_append _ _) hp
  -- the threads after the claim, under a name of their own
  obtain ⟨threads, hthreads⟩ : ∃ threads, threads = (s.set (some t)
      { s.shared with head := s.shared.head + 1#64 }
      (.enqueue v (.writeValue s.shared.head))).threads := ⟨_, rfl⟩
  have hself : holding (threads (some t)) = some (BitVec.ofNat 64 acc.length) := by
    rw [hthreads, Config.set_threads_self, ← inv.head]
    rfl
  have hothers : ∀ u, u ≠ some t → threads u = s.threads u := fun u hu => by
    rw [hthreads, Config.set_threads_of_ne hu]
  have hold : holding (s.threads (some t)) = none := by rw [hl]; rfl
  -- the new position is claimed and not published
  have hpub : ∀ p, del.length ≤ p → p < del.length + c.toNat →
      (Published (acc ++ [v]) del.length threads p ↔ Published acc del.length s.threads p) := by
    intro p hp hlt
    unfold Published
    rw [hothers none (by simp), hlen]
    constructor
    · rintro ⟨-, hlt', hunheld, hcl⟩
      have hne : p ≠ acc.length := fun heq => hunheld (some t) (by rw [heq, hself])
      refine ⟨hp, by omega, fun u => ?_, hcl⟩
      by_cases hu : u = some t
      · rw [hu, hold]
        simp
      · rw [← hothers u hu]
        exact hunheld u
    · rintro ⟨-, hlt', hunheld, hcl⟩
      refine ⟨hp, by omega, fun u => ?_, hcl⟩
      by_cases hu : u = some t
      · rw [hu, hself]
        intro heq
        have := c.eq_of_ofNat_eq ⟨hle, hroom⟩ ⟨hp, hlt⟩ (Option.some.inj heq)
        omega
      · rw [hothers u hu]
        exact hunheld u
  refine ⟨?_, inv.tail, by omega, prefix_accept inv.order v, ?_, ?_, ?_⟩
  · show s.shared.head + 1#64 = _
    rw [inv.head, hlen, BitVec.ofNat_add]
  · intro p hp hlt
    obtain ⟨hready, hvalue⟩ := inv.cell p hp hlt
    rw [← hthreads]
    refine ⟨hready.trans (hpub p hp hlt).symm, fun hp' hne => hget (hvalue ?_ ?_)⟩
    · exact (hpub p hp hlt).mp hp'
    · rwa [hothers none (by simp)] at hne
  · rw [← hthreads]
    intro u
    by_cases hu : u = some t
    · rw [hu, hthreads, Config.set_threads_self]
      exact ⟨acc.length, inv.head, hle, by omega, getElem?_accept v⟩
    · rw [hothers u hu]
      have hinv := inv.locals u
      cases u with
      | some t' => exact ProducerInv.mono (List.prefix_append _ _) hinv
      | none =>
        -- the consumer stays where it is
        have hN := c.toNat_pos
        refine ConsumerInv.mono (List.prefix_append _ _) (hpub _ le_rfl (by omega)).mpr ?_ hinv
        intro hlt hunheld u
        by_cases hu : u = some t
        · rw [hu, hself]
          intro heq
          have := c.eq_of_ofNat_eq ⟨hle, hroom⟩ ⟨le_rfl, by omega⟩ (Option.some.inj heq)
          omega
        · rw [hothers u hu]
          exact hunheld u
  · -- a position that is claimed now was nobody's before
    refine inv.apart.take fun k hk u hne => ?_
    have hk' : some s.shared.head = some k := hk
    rw [← hk', inv.head]
    exact inv.not_held hroom u

/-- An access of the cell of position `r` by the one thread that is there. -/
theorem Inv.setCell (inv : Inv c acc del s) {u : Option ι} {r : Nat} {x : Cell α}
    (hr : del.length ≤ r ∧ r < del.length + c.toNat)
    (hpub : ∀ p, del.length ≤ p → p < del.length + c.toNat → p ≠ r →
      (Published acc del.length (s.set u s.shared l).threads p ↔
        Published acc del.length s.threads p))
    (hready : x.ready = true ↔ Published acc del.length (s.set u s.shared l).threads r)
    (hvalue : x.ready = true → ¬ (r = del.length ∧
      emptied ((s.set u s.shared l).threads none) = true) → acc[r]? = some x.value)
    (hemptied : ∀ p, p ≠ r → p = del.length ∧ emptied (s.threads none) = true →
      emptied ((s.set u s.shared l).threads none) = true)
    (hfree : ∀ v, v ≠ u → holding (s.threads v) ≠ some (BitVec.ofNat 64 r))
    (hself : LocalInv c acc del.length (s.shared.setCell c (BitVec.ofNat 64 r) x)
      (s.set u s.shared l).threads u l)
    (hconsumer : u ≠ none →
      ConsumerInv acc del.length (s.set u s.shared l).threads (s.threads none))
    (hapart : Exclusive holding (s.set u s.shared l).threads) :
    Inv c acc del (s.set u (s.shared.setCell c (BitVec.ofNat 64 r) x) l) := by
  refine ⟨inv.head, inv.tail, inv.fits, inv.order, ?_, ?_, hapart⟩
  · intro p hle hlt
    show ((_ : Cell α).ready = true ↔ _) ∧ (_ → _ → acc[p]? = some (_ : Cell α).value)
    rw [Config.set_shared, buffer_setCell ⟨hle, hlt⟩ hr]
    by_cases hp : p = r
    · rw [if_pos hp, hp]
      exact ⟨hready, fun h => hvalue (hready.mpr h)⟩
    · rw [if_neg hp]
      obtain ⟨hold, hval⟩ := inv.cell p hle hlt
      exact ⟨hold.trans (hpub p hle hlt hp).symm, fun h hne =>
        hval ((hpub p hle hlt hp).mp h) fun hem => hne ⟨hem.1, hemptied p hp hem⟩⟩
  · refine Config.set_forall hself fun v hv => ?_
    have hinv := inv.locals v
    have hne := hfree v hv
    cases v with
    | none => exact hconsumer (Ne.symm hv)
    | some t =>
      unfold LocalInv at hinv ⊢
      cases hl : s.threads (some t) with
      | idle => trivial
      | dequeue pc =>
        rw [hl] at hinv
        exact hinv
      | enqueue w pc =>
        rw [hl] at hinv hne
        cases pc with
        | loadHead => trivial
        | compareTail pos => trivial
        | exchange pos => trivial
        | writeValue pos => exact hinv
        | storeReady pos =>
          -- another producer has another cell
          obtain ⟨p, rfl, hle, hlt, hget, hcell⟩ := hinv
          have hp : p ≠ r := fun heq => hne (by rw [← heq]; rfl)
          refine ⟨p, rfl, hle, hlt, hget, ?_⟩
          have hfits := inv.fits
          rw [Config.set_shared, buffer_setCell ⟨hle, by omega⟩ hr, if_neg hp]
          exact hcell

/-- **A write.** The producer fills the cell it has claimed. -/
theorem Inv.write (inv : Inv c acc del s) {t : ι} {v : α} {pos : BitVec 64}
    (hl : s.threads (some t) = .enqueue v (.writeValue pos)) :
    Inv c acc del (s.set (some t)
      (s.shared.setCell c pos { s.shared.cell c pos with value := v })
      (.enqueue v (.storeReady pos))) := by
  have hinv := inv.locals (some t)
  rw [hl] at hinv
  obtain ⟨r, rfl, hle, hlt, hget⟩ := hinv
  have hfits := inv.fits
  have hheld : holding (s.threads (some t)) = some (BitVec.ofNat 64 r) := by rw [hl]; rfl
  have hholds : ∀ u, holding ((s.set (some t) s.shared (.enqueue v (.storeReady _))).threads u) =
      holding (s.threads u) := Config.set_map holding (by rw [hheld]; rfl)
  have hnone : (s.set (some t) s.shared (.enqueue v (.storeReady (BitVec.ofNat 64 r)))).threads
      none = s.threads none := Config.set_threads_of_ne (by simp)
  have hpub : ∀ p, Published acc del.length
      (s.set (some t) s.shared (.enqueue v (.storeReady (BitVec.ofNat 64 r)))).threads p ↔
      Published acc del.length s.threads p := fun p => published_congr hholds (by rw [hnone])
  obtain ⟨hready, -⟩ := inv.cell r hle (by omega)
  refine inv.setCell ⟨hle, by omega⟩ (fun p _ _ _ => hpub p) ?_ ?_ ?_ ?_ ?_ ?_ ?_
  · rw [cell_ofNat, hpub]
    exact hready
  · intro h
    -- the cell is not ready: its producer is at it
    rw [cell_ofNat] at h
    exact absurd hheld ((hready.mp h).2.2.1 (some t))
  · intro p _ hem
    rw [hnone]
    exact hem.2
  · exact fun u hu hur => hu (inv.apart hur hheld)
  · refine ⟨r, rfl, hle, hlt, hget, ?_⟩
    rw [buffer_setCell ⟨hle, by omega⟩ ⟨hle, by omega⟩, if_pos rfl]
  · intro _
    refine ConsumerInv.mono List.prefix_rfl (hpub _).mpr (fun _ h u => ?_) (inv.locals none)
    rw [hholds]
    exact h u
  · exact inv.apart.keep (by rw [hheld]; rfl)

/-- **A publication.** The producer makes its cell ready. -/
theorem Inv.publish (inv : Inv c acc del s) {t : ι} {v : α} {pos : BitVec 64}
    (hl : s.threads (some t) = .enqueue v (.storeReady pos)) :
    Inv c acc del (s.set (some t)
      (s.shared.setCell c pos { s.shared.cell c pos with ready := true }) .idle) := by
  have hinv := inv.locals (some t)
  rw [hl] at hinv
  obtain ⟨r, rfl, hle, hlt, hget, hcell⟩ := hinv
  have hfits := inv.fits
  have hheld : holding (s.threads (some t)) = some (BitVec.ofNat 64 r) := by rw [hl]; rfl
  have hself : holding ((s.set (some t) s.shared .idle).threads (some t)) = none := by
    rw [Config.set_threads_self]
    rfl
  have hothers : ∀ u, u ≠ some t → (s.set (some t) s.shared .idle).threads u = s.threads u :=
    fun u hu => Config.set_threads_of_ne hu
  have hconsumer := inv.locals none
  -- the consumer is not past a cell that still had a producer
  have hnot : ¬ (r = del.length ∧ cleared (s.threads none) = true) := by
    rintro ⟨hr, hcl⟩
    unfold LocalInv at hconsumer
    cases hpc : s.threads none with
    | idle => rw [hpc] at hcl; exact absurd hcl (by simp [cleared])
    | enqueue w pc => rw [hpc] at hcl; exact absurd hcl (by simp [cleared])
    | dequeue pc =>
      rw [hpc] at hcl hconsumer
      cases pc with
      | incrementTail w => exact hconsumer.2.1 (some t) (by rw [hheld, hr])
      | _ => exact absurd hcl (by simp [cleared])
  have hpub : ∀ p, del.length ≤ p → p < del.length + c.toNat → p ≠ r →
      (Published acc del.length (s.set (some t) s.shared .idle).threads p ↔
        Published acc del.length s.threads p) := by
    intro p hp hpN hpr
    unfold Published
    rw [hothers none (by simp)]
    have hunheld : (∀ u, holding ((s.set (some t) s.shared .idle).threads u) ≠
        some (BitVec.ofNat 64 p)) ↔ ∀ u, holding (s.threads u) ≠ some (BitVec.ofNat 64 p) := by
      constructor
      · intro h u
        by_cases hu : u = some t
        · rw [hu, hheld]
          intro heq
          exact hpr (c.eq_of_ofNat_eq ⟨hp, hpN⟩ ⟨hle, by omega⟩ (Option.some.inj heq).symm)
        · rw [← hothers u hu]
          exact h u
      · intro h u
        by_cases hu : u = some t
        · rw [hu, hself]
          simp
        · rw [hothers u hu]
          exact h u
    rw [hunheld]
  -- its producer was the last one at the cell
  have hpubr : Published acc del.length (s.set (some t) s.shared .idle).threads r := by
    refine ⟨hle, hlt, fun u => ?_, ?_⟩
    · by_cases hu : u = some t
      · rw [hu, hself]
        simp
      · rw [hothers u hu]
        exact fun hur => hu (inv.apart hur hheld)
    · rw [hothers none (by simp)]
      exact hnot
  refine inv.setCell ⟨hle, by omega⟩ hpub ⟨fun _ => hpubr, fun _ => rfl⟩ ?_ ?_ ?_ trivial ?_ ?_
  · -- the value was written before
    intro _ _
    rw [hget, cell_ofNat, hcell]
  · intro p _ hem
    rw [hothers none (by simp)]
    exact hem.2
  · exact fun u hu hur => hu (inv.apart hur hheld)
  · intro _
    refine ConsumerInv.mono List.prefix_rfl (fun h => ?_) (fun hm h u => ?_) hconsumer
    · by_cases hr : del.length = r
      · rw [hr] at hpubr ⊢
        exact hpubr
      · exact (hpub _ le_rfl (by omega) hr).mpr h
    · by_cases hu : u = some t
      · rw [hu, hself]
        simp
      · rw [hothers u hu]
        exact h u
  · exact inv.apart.drop rfl

/-- **A read.** The consumer moves the value out of the cell it has found ready. -/
theorem Inv.take (inv : Inv c acc del s) (moved : α → α)
    (hl : s.threads none = .dequeue .readValue) :
    Inv c acc del (s.set none
      (s.shared.setCell c s.shared.tail
        { s.shared.cell c s.shared.tail with value := moved (s.shared.cell c s.shared.tail).value })
      (.dequeue (.clearReady (s.shared.cell c s.shared.tail).value))) := by
  have hN := c.toNat_pos
  have hinv := inv.locals none
  rw [hl] at hinv
  obtain ⟨hready, hvalue⟩ := inv.cell del.length le_rfl (by omega)
  rw [inv.tail, cell_ofNat]
  have hpub : ∀ v p, Published acc del.length
      (s.set none s.shared (.dequeue (.clearReady v))).threads p ↔
      Published acc del.length s.threads p := fun v p => by
    apply published_congr
    · exact Config.set_map holding (by rw [hl]; rfl)
    · exact Config.set_map cleared (by rw [hl]; rfl) none
  refine inv.setCell ⟨le_rfl, by omega⟩ (fun p _ _ _ => hpub _ p) (hready.trans (hpub _ _).symm)
    ?_ ?_ ?_ ?_ (fun h => absurd rfl h) (inv.apart.keep (by rw [hl]; rfl))
  · -- the value is gone, and the consumer is known to have it
    intro _ hem
    rw [Config.set_threads_self] at hem
    exact absurd ⟨rfl, rfl⟩ hem
  · exact fun p hp hem => absurd hem.1 hp
  · exact fun u _ => hinv.2.2.1 u
  · refine ⟨(hpub _ _).mpr hinv, hvalue hinv ?_⟩
    rw [hl]
    simp [emptied]

/-- **A release.** The consumer clears the flag of the cell it has emptied. -/
theorem Inv.clear (inv : Inv c acc del s) {v : α}
    (hl : s.threads none = .dequeue (.clearReady v)) :
    Inv c acc del (s.set none
      (s.shared.setCell c s.shared.tail { s.shared.cell c s.shared.tail with ready := false })
      (.dequeue (.incrementTail v))) := by
  have hN := c.toNat_pos
  have hinv := inv.locals none
  rw [hl] at hinv
  obtain ⟨hpubm, hget⟩ := hinv
  have hhold : ∀ u, holding ((s.set none s.shared (.dequeue (.incrementTail v))).threads u) =
      holding (s.threads u) := Config.set_map holding (by rw [hl]; rfl)
  rw [inv.tail]
  refine inv.setCell ⟨le_rfl, by omega⟩ (fun p _ _ hp => ?_) ⟨fun h => ?_, fun h => ?_⟩
    (fun h => absurd h (by simp)) (fun p hp hem => absurd hem.1 hp) (fun u _ => hpubm.2.2.1 u) ?_
    (fun h => absurd rfl h) (inv.apart.keep (by rw [hl]; rfl))
  · -- the other cells are published as before
    unfold Published
    simp only [hhold, hp, false_and, not_false_iff]
  · exact absurd h (by simp)
  · -- the position is no longer published
    refine absurd ⟨rfl, ?_⟩ h.2.2.2
    rw [Config.set_threads_self]
    rfl
  · refine ⟨hpubm.2.1, fun u => ?_, hget⟩
    rw [hhold]
    exact hpubm.2.2.1 u

/-- **A delivery.** The consumer advances `m_tail` and returns the value. -/
theorem Inv.deliver (inv : Inv c acc del s) {v : α}
    (hl : s.threads none = .dequeue (.incrementTail v)) :
    Inv c acc (del ++ [v]) (s.set none { s.shared with tail := s.shared.tail + 1#64 } .idle) := by
  have hN := c.toNat_pos
  have hfits := inv.fits
  have hinv := inv.locals none
  rw [hl] at hinv
  obtain ⟨hlt, hunheld, hget⟩ := hinv
  have hlen : (del ++ [v]).length = del.length + 1 := by simp
  have hhold : ∀ u, holding ((s.set none { s.shared with tail := s.shared.tail + 1#64 }
      .idle).threads u) = holding (s.threads u) := Config.set_map holding (by rw [hl]; rfl)
  have hidle : ∀ {q : Shared α}, (s.set none q (.idle : Local α)).threads none = .idle :=
    Config.set_threads_self
  have hpub : ∀ p, del.length + 1 ≤ p →
      (Published acc (del.length + 1) (s.set none { s.shared with tail := s.shared.tail + 1#64 }
        .idle).threads p ↔ Published acc del.length s.threads p) := by
    intro p hp
    unfold Published
    have hne : p ≠ del.length := by omega
    simp only [hhold, hidle, cleared, hne, false_and, not_false_iff, and_true, Bool.false_eq_true,
      and_false, hp, true_and, show del.length ≤ p by omega]
  rw [← hlen] at hpub
  refine ⟨inv.head, ?_, by omega, prefix_deliver inv.order hget, ?_, ?_, ?_⟩
  · show s.shared.tail + 1#64 = _
    rw [inv.tail, hlen, BitVec.ofNat_add]
  · intro p hle hltN
    rw [hlen] at hle hltN
    by_cases hlap : p < del.length + c.toNat
    · obtain ⟨hready, hvalue⟩ := inv.cell p (by omega) hlap
      refine ⟨hready.trans (hpub p (by omega)).symm, fun h _ => hvalue ((hpub p (by omega)).mp h) ?_⟩
      rintro ⟨hp, -⟩
      omega
    · -- the cell just released is that of the next lap
      obtain rfl : p = del.length + c.toNat := by omega
      obtain ⟨hready, -⟩ := inv.cell del.length le_rfl (by omega)
      have hnot : ¬ Published acc del.length s.threads del.length := fun h => by
        refine h.2.2.2 ⟨rfl, ?_⟩
        rw [hl]
        rfl
      have hnot' : ¬ Published acc (del ++ [v]).length (s.set none
          { s.shared with tail := s.shared.tail + 1#64 } .idle).threads
          (del.length + c.toNat) := fun h => by
        have := h.2.1
        omega
      refine ⟨⟨fun h => absurd (hready.mp ?_) hnot, fun h => absurd h hnot'⟩,
        fun h => absurd h hnot'⟩
      rw [Nat.add_mod_right] at h
      exact h
  · refine Config.set_forall trivial fun u hu => ?_
    cases u with
    | none => exact absurd rfl hu
    | some t =>
      have hinv := inv.locals (some t)
      have hne := hunheld (some t)
      unfold LocalInv at hinv ⊢
      cases hpc : s.threads (some t) with
      | idle => trivial
      | dequeue pc =>
        rw [hpc] at hinv
        exact hinv
      | enqueue w pc =>
        rw [hpc] at hinv hne
        cases pc with
        | loadHead => trivial
        | compareTail pos => trivial
        | exchange pos => trivial
        | writeValue pos =>
          -- no producer is at the cell that is left
          obtain ⟨p, rfl, hle, hrest⟩ := hinv
          have hp : p ≠ del.length := fun heq => hne (by rw [heq]; rfl)
          exact ⟨p, rfl, by omega, hrest⟩
        | storeReady pos =>
          obtain ⟨p, rfl, hle, hrest⟩ := hinv
          have hp : p ≠ del.length := fun heq => hne (by rw [heq]; rfl)
          exact ⟨p, rfl, by omega, hrest⟩
  · exact inv.apart.keep (by rw [hl]; rfl)

end

end HopeThreading.MpscBoundedQueue
