import HopeThreading.Queue.MpmcBounded
import HopeThreading.Queue.SpscBounded

namespace HopeThreading.MpmcBoundedQueue

open Transition

open SpscBoundedQueue (Call Answer fifoCall)

/-!
# `mpmc_bounded_queue` — calls that do not overlap

Here a call does all of its accesses before the next call starts.  The positions are then
plain counters that wrap at the end of the word, and the sequence number of a cell differs
from what a call expects by less than one lap, so the signed difference is the true one
(`dif_ofNat`) no matter how often the words have wrapped.  `answers_eq_fifo`: the answers are
those of a FIFO of `size` values, and each call is through its loop once.
-/

/-! ### A complete call -/

variable {α : Type*}

/-- The next access of the only thread inside a call. -/
def access (c : Capacity) (moved : α → α) (q : Shared α) :
    Local α → Shared α × Local α × List (Event Unit α)
  | .idle => (q, .idle, [])
  | .enqueue inValue pc => tryEnqueue c q () inValue pc
  | .dequeue pc => tryDequeue c moved q () pc

/-- The access is the first one in the body of the `for (;;)`. -/
def Local.entersLoop : Local α → Bool
  | .enqueue _ (.loadSequence _) | .dequeue (.loadSequence _) => true
  | _ => false

/-- Access after access until the call returns, with what it has emitted and how often it has
    entered the body of its loop; `none` when `fuel` accesses are not enough. -/
def finish (c : Capacity) (moved : α → α) :
    (fuel : Nat) → Shared α → Local α → List (Event Unit α) → Nat →
      Option (Shared α × List (Event Unit α) × Nat)
  | _, q, .idle, es, rounds => some (q, es, rounds)
  | 0, _, _, _, _ => none
  | fuel + 1, q, l, es, rounds =>
    let r := access c moved q l
    finish c moved fuel r.1 r.2.1 (es ++ r.2.2) (if l.entersLoop then rounds + 1 else rounds)

/-- The first access of a call. -/
def start : Call α → Local α
  | .tryEnqueue v => .enqueue v .loadPos
  | .tryDequeue => .dequeue .loadPos

/-- What a call has returned. -/
def answerOf (es : List (Event Unit α)) : Option (Answer α) :=
  es.findSome? fun
    | .enqueueReturned _ ok => some (.enqueued ok)
    | .dequeueReturned _ _ v => some (.dequeued (some v))
    | .dequeueRefused _ => some (.dequeued none)
    | _ => none

/-- A complete call, with its answer and the number of rounds of its loop. -/
def call (c : Capacity) (moved : α → α) (fuel : Nat) (q : Shared α) (op : Call α) :
    Shared α × Option (Answer α × Nat) :=
  match finish c moved fuel q (start op) [] 0 with
  | none => (q, none)
  | some (q', es, rounds) => (q', (answerOf es).map fun r => (r, rounds))

/-- A call that is not at its end goes on with its next access, and `rounds` counts the beginnings
    of its loop. -/
theorem finish_succ {c : Capacity} {moved : α → α} {fuel rounds : Nat} {q : Shared α}
    {l : Local α} {es : List (Event Unit α)} (hl : l ≠ .idle) :
    finish c moved (fuel + 1) q l es rounds =
      finish c moved fuel (access c moved q l).1 (access c moved q l).2.1
        (es ++ (access c moved q l).2.2) (if l.entersLoop then rounds + 1 else rounds) := by
  cases l with
  | idle => exact absurd rfl hl
  | enqueue v pc => rfl
  | dequeue pc => rfl

/-- With one thread, a state is the queue and where the thread is. -/
theorem commit_only (q : Shared α) (l : Local α) (r : Shared α × Local α × List (Event Unit α)) :
    State.commit { shared := q, threads := fun _ => l } () r =
      ({ shared := r.1, threads := fun _ => r.2.1 }, r.2.2) := by
  refine Prod.ext (congrArg (State.mk _) (funext fun u => ?_)) rfl
  simp

/-- An access of the one thread takes a run on. -/
theorem run_access {c : Capacity} {moved : α → α} {raw : Nat → α} {q : Shared α} {l : Local α}
    {tr : List (Event Unit α)} (hl : l ≠ .idle)
    (run : (machine c moved raw).Run tr { shared := q, threads := fun _ => l }) :
    (machine c moved raw).Run (tr ++ (access c moved q l).2.2)
      { shared := (access c moved q l).1, threads := fun _ => (access c moved q l).2.1 } := by
  refine run.snoc (a := .step ()) trivial ?_
  cases l with
  | idle => exact absurd rfl hl
  | enqueue v pc => exact congrArg some (commit_only _ _ _)
  | dequeue pc => exact congrArg some (commit_only _ _ _)

/-- The start of a call takes a run on. -/
theorem run_start {c : Capacity} {moved : α → α} {raw : Nat → α} {q : Shared α}
    {tr : List (Event Unit α)} (op : Call α)
    (run : (machine c moved raw).Run tr { shared := q, threads := fun _ => .idle }) :
    (machine c moved raw).Run (tr ++ []) { shared := q, threads := fun _ => start op } := by
  cases op with
  | tryEnqueue v =>
    exact run.snoc (a := .tryEnqueue () v) trivial (congrArg some (commit_only _ _ _))
  | tryDequeue =>
    exact run.snoc (a := .tryDequeue ()) trivial (congrArg some (commit_only _ _ _))

/-- A call that nobody interrupts is a piece of a run of the queue. -/
theorem finish_run {c : Capacity} {moved : α → α} {raw : Nat → α} {fuel rounds rounds' : Nat}
    {q q' : Shared α} {l : Local α} {tr es es' : List (Event Unit α)}
    (run : (machine c moved raw).Run (tr ++ es) { shared := q, threads := fun _ => l })
    (h : finish c moved fuel q l es rounds = some (q', es', rounds')) :
    (machine c moved raw).Run (tr ++ es') { shared := q', threads := fun _ => .idle } := by
  induction fuel generalizing q l es rounds with
  | zero =>
    cases l with
    | idle => cases h; exact run
    | enqueue v pc => exact absurd h (by simp [finish])
    | dequeue pc => exact absurd h (by simp [finish])
  | succ fuel ih =>
    by_cases hl : l = .idle
    · rw [hl] at run h
      cases h
      exact run
    · have run' := run_access hl run
      rw [List.append_assoc] at run'
      rw [finish_succ hl] at h
      exact ih run' h

/-- So a sequence of calls is a run of the queue with one thread. -/
theorem calls_run {c : Capacity} {moved : α → α} {raw : Nat → α} {fuel : Nat} {q : Shared α}
    {tr : List (Event Unit α)} (ops : List (Call α))
    (run : (machine c moved raw).Run tr { shared := q, threads := fun _ => .idle }) :
    ∃ tr' : List (Event Unit α), (machine c moved raw).Run tr'
      { shared := ops.foldl (fun q op => (call c moved fuel q op).1) q,
        threads := fun _ => .idle } := by
  induction ops generalizing q tr with
  | nil => exact ⟨tr, run⟩
  | cons op rest ih =>
    have hcall : ∃ tr' : List (Event Unit α), (machine c moved raw).Run tr'
        { shared := (call c moved fuel q op).1, threads := fun _ => .idle } := by
      unfold call
      split
      · exact ⟨tr, run⟩
      · rename_i hfinish
        exact ⟨_, finish_run (run_start op run) hfinish⟩
    obtain ⟨tr', run'⟩ := hcall
    exact ih run'

/-! ### Positions that wrap -/

/-- Numbers less than half of the word apart: the signed difference is the true one. -/
theorem dif_ofNat {a b : Nat} (hlow : (b : Int) - 2 ^ 63 ≤ a) (hhigh : (a : Int) < b + 2 ^ 63) :
    dif (BitVec.ofNat 64 a) (BitVec.ofNat 64 b) = (a : Int) - b := by
  rw [dif, BitVec.toInt_sub, BitVec.toInt_ofNat', BitVec.toInt_ofNat', Int.sub_bmod_bmod,
    Int.bmod_sub_bmod]
  refine Int.bmod_eq_of_le ?_ ?_ <;> omega

section

variable {c : Capacity} {q : Shared α} {stored : List α} {d : Nat} {v : α}

/-- The cell of a position that wraps around the word … -/
theorem cell_ofNat (p : Nat) : q.cell c (BitVec.ofNat 64 p) = q.buffer (p % c.toNat) := by
  rw [Shared.cell, Words.PowTwo.toNat_and_mask, c.ofNat_mod]

/-- … and the write to it. -/
theorem setCell_ofNat (p : Nat) (x : Cell α) : q.setCell c (BitVec.ofNat 64 p) x =
    { q with buffer := Function.update q.buffer (p % c.toNat) x } := by
  rw [Shared.setCell, Words.PowTwo.toNat_and_mask, c.ofNat_mod]

/-- The next position, as a word. -/
theorem ofNat_succ (p : Nat) : BitVec.ofNat 64 p + 1#64 = BitVec.ofNat 64 (p + 1) :=
  (BitVec.ofNat_add p 1).symm

/-- `pos + m_buffer_mask + 1` is the position one lap later. -/
theorem ofNat_add_lap (p : Nat) :
    BitVec.ofNat 64 p + c.mask + 1#64 = BitVec.ofNat 64 (p + c.toNat) := by
  apply BitVec.eq_of_toNat_eq
  have hpos := c.toNat_pos
  simp only [BitVec.toNat_add, BitVec.toNat_ofNat, Words.PowTwo.toNat_mask]
  omega

/-! ### What is stored -/

/-- The queue holds `stored`, the first value at position `d`, where both positions are counted
    without wrapping. -/
structure Stores (c : Capacity) (stored : List α) (d : Nat) (q : Shared α) : Prop where
  dequeuePos : q.dequeuePos = BitVec.ofNat 64 d
  enqueuePos : q.enqueuePos = BitVec.ofNat 64 (d + stored.length)
  room : stored.length ≤ c.toNat
  full : ∀ i v, stored[i]? = some v → q.buffer ((d + i) % c.toNat) =
    { sequence := BitVec.ofNat 64 (d + i + 1), data := v }
  free : ∀ p, d + stored.length ≤ p → p < d + c.toNat →
    (q.buffer (p % c.toNat)).sequence = BitVec.ofNat 64 p

/-- The buffer of a new queue holds no values. -/
theorem stores_init (raw : Nat → α) : Stores c [] 0 (Shared.init raw) where
  dequeuePos := rfl
  enqueuePos := rfl
  room := Nat.zero_le _
  full i v h := absurd h (by simp)
  free p _ hp := by
    rw [Nat.zero_add] at hp
    rw [Nat.mod_eq_of_lt hp]
    rfl

/-- `try_enqueue` with room. -/
theorem Stores.enqueue (h : Stores c stored d q) (hroom : stored.length < c.toNat)
    (moved : α → α) (v : α) (fuel : Nat) :
    ∃ q', call c moved (fuel + 5) q (.tryEnqueue v) = (q', some (.enqueued true, 1)) ∧
      Stores c (stored ++ [v]) d q' := by
  have hdif : dif (q.buffer ((d + stored.length) % c.toNat)).sequence
      (BitVec.ofNat 64 (d + stored.length)) = 0 := by
    rw [h.free _ (le_refl _) (by omega), dif_ofNat (by omega) (by omega)]
    omega
  refine ⟨{ buffer := Function.update q.buffer ((d + stored.length) % c.toNat)
              { sequence := BitVec.ofNat 64 (d + stored.length + 1), data := v }
            enqueuePos := BitVec.ofNat 64 (d + stored.length + 1)
            dequeuePos := q.dequeuePos }, ?_, h.dequeuePos, ?_, ?_, fun i w hw => ?_,
    fun p hp hp' => ?_⟩
  · simp [call, finish, start, access, tryEnqueue, Local.entersLoop, answerOf, h.enqueuePos,
      cell_ofNat, setCell_ofNat, hdif, ofNat_succ]
  · rw [List.length_append, List.length_singleton, Nat.add_assoc]
  · rw [List.length_append, List.length_singleton]
    exact hroom
  · show Function.update q.buffer _ _ _ = _
    by_cases hi : i < stored.length
    · -- the new cell is no cell of an older value
      have hne : (d + i) % c.toNat ≠ (d + stored.length) % c.toNat := fun heq =>
        absurd (c.eq_of_mod_eq (m := d) (by omega) (by omega) heq) (by omega)
      rw [Function.update_of_ne hne]
      exact h.full i w (by rwa [List.getElem?_append_left hi] at hw)
    · rw [List.getElem?_append_right (by omega)] at hw
      obtain rfl : i = stored.length := by
        have := (List.getElem?_eq_some_iff.mp hw).1
        simp at this
        omega
      obtain rfl : v = w := by simpa using hw
      rw [Function.update_self]
  · rw [List.length_append, List.length_singleton] at hp
    have hne : p % c.toNat ≠ (d + stored.length) % c.toNat := fun heq =>
      absurd (c.eq_of_mod_eq (m := d) (by omega) (by omega) heq) (by omega)
    show (Function.update q.buffer _ _ _).sequence = _
    rw [Function.update_of_ne hne]
    exact h.free p (by omega) hp'

/-- `try_enqueue` without room sees the sequence of a value that was stored one lap before. -/
theorem Stores.enqueue_refused (h : Stores c stored d q) (hfull : stored.length = c.toNat)
    (moved : α → α) (v : α) (fuel : Nat) :
    call c moved (fuel + 5) q (.tryEnqueue v) = (q, some (.enqueued false, 1)) := by
  have hpos := c.toNat_pos
  obtain ⟨w, hw⟩ : ∃ w, stored[0]? = some w :=
    ⟨stored.get ⟨0, by omega⟩, List.getElem?_eq_getElem _⟩
  have hdif : dif (q.buffer ((d + stored.length) % c.toNat)).sequence
      (BitVec.ofNat 64 (d + stored.length)) = 1 - (c.toNat : Int) := by
    have hhalf := c.toNat_le_half
    rw [hfull, Nat.add_mod_right, ← Nat.add_zero d, h.full 0 w hw, dif_ofNat (by omega) (by omega)]
    omega
  have htwo : 2 ≤ c.toNat := by
    have := Nat.pow_le_pow_right (n := 2) (by omega) c.exp_pos
    simpa [Words.PowTwo.toNat] using this
  simp [call, finish, start, access, tryEnqueue, Local.entersLoop, answerOf, h.enqueuePos,
    cell_ofNat, hdif, show ¬ 1 - (c.toNat : Int) = 0 by omega, show 1 - (c.toNat : Int) < 0 by omega]

/-- `try_dequeue` of the oldest value. -/
theorem Stores.dequeue (h : Stores c (v :: stored) d q) (moved : α → α) (fuel : Nat) :
    ∃ q', call c moved (fuel + 5) q .tryDequeue = (q', some (.dequeued (some v), 1)) ∧
      Stores c stored (d + 1) q' := by
  have hcell : q.buffer (d % c.toNat) = { sequence := BitVec.ofNat 64 (d + 1), data := v } :=
    h.full 0 v rfl
  have hdif : dif (BitVec.ofNat 64 (d + 1)) (BitVec.ofNat 64 (d + 1)) = 0 := by
    rw [dif_ofNat (by omega) (by omega)]
    omega
  have hlength : (v :: stored).length = stored.length + 1 := rfl
  have hroom := h.room
  refine ⟨{ buffer := Function.update q.buffer (d % c.toNat)
              { sequence := BitVec.ofNat 64 (d + c.toNat), data := moved v }
            enqueuePos := q.enqueuePos
            dequeuePos := BitVec.ofNat 64 (d + 1) }, ?_, rfl, ?_, ?_, fun i w hw => ?_,
    fun p hp hp' => ?_⟩
  · simp [call, finish, start, access, tryDequeue, Local.entersLoop, answerOf, h.dequeuePos,
      cell_ofNat, setCell_ofNat, hcell, hdif, ofNat_add_lap, ofNat_succ]
  · rw [Nat.add_assoc, Nat.add_comm 1]
    exact h.enqueuePos
  · omega
  · have hi := (List.getElem?_eq_some_iff.mp hw).1
    have hne : (d + 1 + i) % c.toNat ≠ d % c.toNat := fun heq =>
      absurd (c.eq_of_mod_eq (m := d) (by omega) (by omega) heq) (by omega)
    show Function.update q.buffer _ _ _ = _
    rw [Function.update_of_ne hne, Nat.add_assoc, Nat.add_comm 1]
    exact h.full (i + 1) w hw
  · show (Function.update q.buffer _ _ _).sequence = _
    by_cases heq : p = d + c.toNat
    · rw [heq, Nat.add_mod_right, Function.update_self]
    · have hne : p % c.toNat ≠ d % c.toNat := fun hmod =>
        absurd (c.eq_of_mod_eq (m := d) (by omega) (by omega) hmod) (by omega)
      rw [Function.update_of_ne hne]
      exact h.free p (by omega) (by omega)

/-- `try_dequeue` of nothing sees a cell that waits for its value. -/
theorem Stores.dequeue_refused (h : Stores c [] d q) (moved : α → α) (fuel : Nat) :
    call c moved (fuel + 5) q .tryDequeue = (q, some (.dequeued none, 1)) := by
  have hdif : dif (q.buffer (d % c.toNat)).sequence (BitVec.ofNat 64 (d + 1)) = -1 := by
    have hpos := c.toNat_pos
    rw [h.free d (le_refl _) (by omega), dif_ofNat (by omega) (by omega)]
    omega
  simp [call, finish, start, access, tryDequeue, Local.entersLoop, answerOf, h.dequeuePos,
    cell_ofNat, hdif, ofNat_succ]

/-- **One call** of a queue that stores what a FIFO holds. -/
theorem Stores.call (h : Stores c stored d q) (moved : α → α) (fuel : Nat) (op : Call α) :
    (call c moved (fuel + 5) q op).2 = some ((fifoCall c.toNat stored op).2, 1) ∧
      ∃ d', Stores c (fifoCall c.toNat stored op).1 d' (call c moved (fuel + 5) q op).1 := by
  cases op with
  | tryEnqueue v =>
    rw [fifoCall]
    by_cases hroom : stored.length < c.toNat
    · obtain ⟨q', hcall, hstores⟩ := h.enqueue hroom moved v fuel
      rw [hcall, if_pos hroom]
      exact ⟨rfl, d, hstores⟩
    · rw [h.enqueue_refused (Nat.le_antisymm h.room (Nat.le_of_not_lt hroom)), if_neg hroom]
      exact ⟨rfl, d, h⟩
  | tryDequeue =>
    cases stored with
    | nil =>
      rw [h.dequeue_refused]
      exact ⟨rfl, d, h⟩
    | cons v rest =>
      obtain ⟨q', hcall, hstores⟩ := h.dequeue moved fuel
      rw [hcall]
      exact ⟨rfl, d + 1, hstores⟩

end

/-- **A bounded FIFO.** For every size and every sequence of calls, of any length: each call
    returns within five accesses, after one round of its loop, what a FIFO with room for `size`
    values answers. -/
theorem answers_eq_fifo (c : Capacity) (moved : α → α) (raw : Nat → α) (fuel : Nat)
    (ops : List (Call α)) :
    answers (call c moved (fuel + 5)) (Shared.init raw) ops =
      (answers (fifoCall c.toNat) [] ops).map fun r => some (r, 1) :=
  answers_eq_map (R := fun q stored => ∃ d, Stores c stored d q)
    (fun _ _ op ⟨_, h⟩ => h.call moved fuel op) ⟨0, stores_init raw⟩ ops

end HopeThreading.MpmcBoundedQueue
