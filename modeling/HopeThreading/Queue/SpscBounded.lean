import HopeThreading.Queue.MpmcBounded
import HopeThreading.Transition.Sequence

namespace HopeThreading.SpscBoundedQueue

open Transition

open MpmcBoundedQueue (Capacity)

/-!
# `spsc_bounded_queue`

A ring with free-running positions `m_head` and `m_tail`.  Both functions advance their
position by `fetch_add(pos + 1)`, which adds `pos + 1` to it: after `n` calls the position is
`2 ^ n - 1` and not `n`.  The slots of these positions are `0, 1, 3, 7, …` and then always the
last one, and from the 64th call on the position does not move at all.

`answers_iff_fine` says for every sequence of calls whether the queue answers as a FIFO of
capacity `buffer_size` does.
-/

/-! ### The model -/

/-- The members of the queue: the buffer and the two positions. -/
structure Shared (α : Type*) where
  buffer : Nat → α
  head : BitVec 64
  tail : BitVec 64

/-- The calls of the two threads. -/
inductive Call (α : Type*)
  | tryEnqueue (v : α)
  | tryDequeue

/-- What they return. -/
inductive Answer (α : Type*)
  | enqueued (ok : Bool)
  | dequeued (v : Option α)
  deriving DecidableEq

variable {α : Type*}

/-- `m_head.fetch_add(cur_head + 1)`. -/
def fetchAdd (pos : BitVec 64) : BitVec 64 := pos + (pos + 1#64)

/-- `try_enqueue(v)`, and whether it put `v` in. -/
def tryEnqueue (c : Capacity) (q : Shared α) (v : α) : Shared α × Bool :=
  if q.head - q.tail > c.size then (q, false)
  else
    ({ buffer := Function.update q.buffer (q.head &&& c.mask).toNat v
       head := fetchAdd q.head
       tail := q.tail }, true)

/-- `moved v` is what a move leaves behind in the place of `v`. -/
def tryDequeue (c : Capacity) (moved : α → α) (q : Shared α) : Shared α × Option α :=
  if q.head = q.tail then (q, none)
  else
    let actualIndex := (q.tail &&& c.mask).toNat
    ({ buffer := Function.update q.buffer actualIndex (moved (q.buffer actualIndex))
       head := q.head
       tail := fetchAdd q.tail }, some (q.buffer actualIndex))

/-- A call as a whole, and its answer. -/
def call (c : Capacity) (moved : α → α) (q : Shared α) : Call α → Shared α × Answer α
  | .tryEnqueue v => ((tryEnqueue c q v).1, .enqueued (tryEnqueue c q v).2)
  | .tryDequeue => ((tryDequeue c moved q).1, .dequeued (tryDequeue c moved q).2)

/-- The queue as constructed; `raw` are the values the vector is made with. -/
def Shared.init (raw : Nat → α) : Shared α where
  buffer := raw
  head := 0#64
  tail := 0#64

/-! ### The abstract queue -/

/-- A call of a FIFO with room for `capacity` values; the state is what waits in it. -/
def fifoCall (capacity : Nat) (waiting : List α) : Call α → List α × Answer α
  | .tryEnqueue v =>
    if waiting.length < capacity then (waiting ++ [v], .enqueued true)
    else (waiting, .enqueued false)
  | .tryDequeue => (waiting.tail, .dequeued waiting.head?)

/-! ### When a call is answered like that -/

/-- What the calls so far have been, for a queue that has answered them as a FIFO does: how
    many values it has accepted and delivered, which ones wait, and what was left in the last
    slot of the ring. -/
structure History (α : Type*) where
  accepted : Nat
  delivered : Nat
  waiting : List α
  last : α

/-- No call was made yet. -/
def History.init (raw : α) : History α where
  accepted := 0
  delivered := 0
  waiting := []
  last := raw

/-- From the `exp`-th one on, the values go to the last slot. -/
def History.after (c : Capacity) (moved : α → α) (h : History α) : Call α → History α
  | .tryEnqueue v =>
    if h.waiting.length < c.toNat then
      { h with accepted := h.accepted + 1, waiting := h.waiting ++ [v],
               last := if c.exp ≤ h.accepted then v else h.last }
    else h
  | .tryDequeue =>
    match h.waiting with
    | [] => h
    | _ :: rest =>
      { h with delivered := h.delivered + 1, waiting := rest,
               last := if c.exp ≤ h.delivered then moved h.last else h.last }

/-- After that many deliveries `m_tail` is within `buffer_size` of the last word. -/
def Stuck (c : Capacity) (delivered : Nat) : Prop :=
  64 ≤ delivered ∨ delivered = 63 ∧ c.exp = 63

/-- A call that is answered as it should be:

    * `try_enqueue` with room: the queue is empty, or at most `exp` values were accepted, or
      `exp + 1` were and all but the last one delivered;
    * `try_enqueue` without room: always, before `m_tail` is stuck (and only after that the
      calls with room are answered rightly again);
    * `try_dequeue` of a waiting value: fewer than `exp` were delivered, or the last slot
      happens to hold the oldest waiting value; and not after 64 deliveries. -/
def Fine (c : Capacity) (h : History α) : Call α → Prop
  | .tryEnqueue _ =>
    if h.waiting.length < c.toNat then
      h.waiting = [] ∨ h.accepted ≤ c.exp ∨ h.accepted = c.exp + 1 ∧ h.delivered = c.exp ∨
        Stuck c h.delivered
    else ¬ Stuck c h.delivered
  | .tryDequeue =>
    h.waiting = [] ∨
      h.delivered < 64 ∧ (h.delivered < c.exp ∨ h.waiting.head? = some h.last)

/-! ### The positions -/

/-- The position after `n` calls. -/
def position (n : Nat) : BitVec 64 := BitVec.ofNat 64 (2 ^ n - 1)

/-- The positions of the code are those of its own sequence, one after the other. -/
theorem fetchAdd_position (n : Nat) : fetchAdd (position n) = position (n + 1) := by
  have hpos := Nat.two_pow_pos n
  unfold fetchAdd position
  rw [← BitVec.ofNat_add, ← BitVec.ofNat_add]
  congr 1
  rw [Nat.pow_succ]
  omega

section

variable {c : Capacity} {n m : Nat}

/-- Powers of two grow. -/
theorem two_pow_lt (h : n < m) : 2 ^ n < 2 ^ m := Nat.pow_lt_pow_right (by omega) h

/-- Powers of two do not fall. -/
theorem two_pow_le (h : n ≤ m) : 2 ^ n ≤ 2 ^ m := Nat.pow_le_pow_right (by omega) h

/-- The slot of a position. -/
theorem index_position (n : Nat) :
    (position n &&& c.mask).toNat = if n < c.exp then 2 ^ n - 1 else c.toNat - 1 := by
  have hpos := Nat.two_pow_pos n
  rw [c.toNat_and_mask, position, c.ofNat_mod]
  unfold Words.PowTwo.toNat
  split
  · rename_i hlt
    have := two_pow_lt hlt
    exact Nat.mod_eq_of_lt (by omega)
  · -- the lower bits of the position are all set
    rename_i hge
    obtain ⟨d, rfl⟩ := Nat.exists_eq_add_of_le (Nat.le_of_not_lt hge)
    have he := Nat.two_pow_pos c.exp
    have hd := Nat.two_pow_pos d
    have hsum : 2 ^ (c.exp + d) - 1 = 2 ^ c.exp * (2 ^ d - 1) + (2 ^ c.exp - 1) := by
      obtain ⟨k, hk⟩ : ∃ k, 2 ^ d = k + 1 := ⟨2 ^ d - 1, by omega⟩
      rw [Nat.pow_add, hk, Nat.mul_succ, Nat.add_sub_cancel]
      omega
    rw [hsum, Nat.mul_add_mod, Nat.mod_eq_of_lt (by omega)]

/-- The difference of two positions. -/
theorem toNat_position_sub (h : m ≤ n) :
    (position n - position m).toNat = (2 ^ n - 2 ^ m) % 2 ^ 64 := by
  have hm := Nat.two_pow_pos m
  have hle := two_pow_le h
  have hsub : position n - position m = BitVec.ofNat 64 (2 ^ n - 2 ^ m) := by
    unfold position
    rw [show 2 ^ n - 1 = (2 ^ n - 2 ^ m) + (2 ^ m - 1) by omega, BitVec.ofNat_add]
    exact BitVec.add_sub_cancel _ _
  rw [hsub, BitVec.toNat_ofNat]

/-- The distance of two positions when the word has only the lower one. -/
theorem sub_mod_of_lt (hm : m < 64) (hn : 64 ≤ n) :
    (2 ^ n - 2 ^ m) % 2 ^ 64 = 2 ^ 64 - 2 ^ m := by
  obtain ⟨d, rfl⟩ := Nat.exists_eq_add_of_le hn
  obtain ⟨k, hk⟩ : ∃ k, 2 ^ d = k + 1 := ⟨2 ^ d - 1, by have := Nat.two_pow_pos d; omega⟩
  have hlt := two_pow_lt hm
  have hpos := Nat.two_pow_pos m
  have hsum : 2 ^ (64 + d) - 2 ^ m = 2 ^ 64 * k + (2 ^ 64 - 2 ^ m) := by
    rw [Nat.pow_add, hk, Nat.mul_succ]
    omega
  rw [hsum, Nat.mul_add_mod, Nat.mod_eq_of_lt (by omega)]

/-- The distance when the word has neither. -/
theorem sub_mod_of_le (hm : 64 ≤ m) (h : m ≤ n) : (2 ^ n - 2 ^ m) % 2 ^ 64 = 0 :=
  Nat.mod_eq_zero_of_dvd (Nat.dvd_sub (Nat.pow_dvd_pow 2 (hm.trans h)) (Nat.pow_dvd_pow 2 hm))

/-- The distance when the word has both. -/
theorem sub_mod_of_small (hn : n < 64) : (2 ^ n - 2 ^ m) % 2 ^ 64 = 2 ^ n - 2 ^ m := by
  have hlt := two_pow_lt hn
  have hpos := Nat.two_pow_pos m
  exact Nat.mod_eq_of_lt (by omega)

/-- Two positions are equal when no call was in between, or when they do not move. -/
theorem position_eq (h : m ≤ n) : position n = position m ↔ n = m ∨ 64 ≤ m := by
  have hsub := toNat_position_sub h
  constructor
  · intro heq
    rw [heq, BitVec.sub_self, BitVec.toNat_zero] at hsub
    by_contra hne
    rcases Nat.lt_or_ge n 64 with hn | hn
    · rw [sub_mod_of_small hn] at hsub
      have := two_pow_lt (show m < n by omega)
      omega
    · rw [sub_mod_of_lt (by omega) hn] at hsub
      have := two_pow_lt (show m < 64 by omega)
      omega
  · rintro (rfl | hm)
    · rfl
    · rw [sub_mod_of_le hm h] at hsub
      have hzero : position n - position m = 0#64 := BitVec.eq_of_toNat_eq hsub
      rw [← BitVec.sub_add_cancel (position n) (position m), hzero, BitVec.zero_add]

/-- `try_enqueue` accepts. -/
theorem le_size_iff (h : m ≤ n) : (2 ^ n - 2 ^ m) % 2 ^ 64 ≤ c.toNat ↔
    n = m ∨ n ≤ c.exp ∨ n = c.exp + 1 ∧ m = c.exp ∨ Stuck c m := by
  have he := c.exp_lt
  have hmpos := Nat.two_pow_pos m
  have hepos := Nat.two_pow_pos c.exp
  unfold Stuck Words.PowTwo.toNat
  rcases Nat.lt_or_ge m 64 with hm | hm
  · rcases Nat.eq_or_lt_of_le h with rfl | hlt
    · simp
    -- a counter that was doubled 64 times is zero
    rcases Nat.lt_or_ge n 64 with hn | hn
    · rw [sub_mod_of_small hn]
      rcases Nat.lt_or_ge c.exp n with hgt | hle
      · rcases Nat.eq_or_lt_of_le (Nat.succ_le_of_lt hgt) with heq | hgt'
        · -- `2 ^ (exp + 1) - 2 ^ m` is small enough for `m = exp` only
          obtain rfl : n = c.exp + 1 := heq.symm
          have hdouble : 2 ^ (c.exp + 1) = 2 * 2 ^ c.exp := Nat.pow_succ'
          rcases Nat.lt_or_ge m c.exp with hme | hme
          · have := two_pow_lt hme
            omega
          · obtain rfl : m = c.exp := by omega
            omega
        · -- from `exp + 2` on the difference is more than `2 ^ exp`
          obtain ⟨k, rfl⟩ : ∃ k, n = k + 1 := ⟨n - 1, by omega⟩
          have hdouble : 2 ^ (k + 1) = 2 * 2 ^ k := Nat.pow_succ'
          have hmk := two_pow_le (show m ≤ k by omega)
          have hek := two_pow_lt (show c.exp < k by omega)
          omega
      · have := two_pow_le hle
        omega
    · rw [sub_mod_of_lt hm hn]
      have hexp := two_pow_le (show c.exp ≤ 63 by omega)
      -- with the head at zero the difference is `2 ^ 64 - 2 ^ m`
      rcases Nat.lt_or_ge m 63 with hm' | hm'
      · have := two_pow_le (show m ≤ 62 by omega)
        omega
      · obtain rfl : m = 63 := by omega
        rcases Nat.lt_or_ge c.exp 63 with he' | he'
        · have := two_pow_le (show c.exp ≤ 62 by omega)
          omega
        · have hexp' : c.exp = 63 := by omega
          rw [hexp']
          omega
  · rw [sub_mod_of_le hm h]
    simp [hm]

end

/-! ### The answers -/

/-- The queue is where a FIFO with this history is. -/
structure Agrees (c : Capacity) (q : Shared α) (waiting : List α) (h : History α) : Prop where
  same : h.waiting = waiting
  count : h.accepted = h.delivered + h.waiting.length
  head : q.head = position h.accepted
  tail : q.tail = position h.delivered
  /-- The slots before the last one are used once. -/
  early : ∀ k, h.delivered ≤ k → k < h.accepted → k < c.exp →
    h.waiting[k - h.delivered]? = some (q.buffer (2 ^ k - 1))
  last : q.buffer (c.toNat - 1) = h.last

section

variable {c : Capacity} {moved : α → α} {q : Shared α} {waiting : List α} {h : History α}

/-- A slot of the first positions is not the last one, and belongs to one of them. -/
theorem slot_ne {k : Nat} (hk : k < c.exp) : 2 ^ k - 1 ≠ c.toNat - 1 := by
  have hlt := two_pow_lt hk
  have hpos := Nat.two_pow_pos k
  unfold Words.PowTwo.toNat
  omega

/-- Two of these positions are different cells. -/
theorem slot_inj {k j : Nat} (h : 2 ^ k - 1 = 2 ^ j - 1) : k = j := by
  have hk := Nat.two_pow_pos k
  have hj := Nat.two_pow_pos j
  rcases Nat.lt_trichotomy k j with hlt | heq | hgt
  · have := two_pow_lt hlt
    omega
  · exact heq
  · have := two_pow_lt hgt
    omega

/-- When the queue accepts. -/
theorem Agrees.accepts (hR : Agrees c q waiting h) : ¬ q.head - q.tail > c.size ↔
    h.waiting = [] ∨ h.accepted ≤ c.exp ∨ h.accepted = c.exp + 1 ∧ h.delivered = c.exp ∨
      Stuck c h.delivered := by
  have hle : h.delivered ≤ h.accepted := by
    rw [hR.count]
    omega
  rw [hR.head, hR.tail, gt_iff_lt, BitVec.lt_def, c.toNat_size, toNat_position_sub hle, Nat.not_lt,
    le_size_iff hle, hR.count, ← List.length_eq_zero_iff]
  constructor
  · rintro (h0 | hrest)
    · left
      omega
    · exact .inr hrest
  · rintro (h0 | hrest)
    · left
      omega
    · exact .inr hrest

/-- After an accepted value. -/
theorem Agrees.enqueue (hR : Agrees c q waiting h) (v : α) (hroom : h.waiting.length < c.toNat) :
    Agrees c ⟨Function.update q.buffer (q.head &&& c.mask).toNat v, fetchAdd q.head, q.tail⟩
      (waiting ++ [v]) (h.after c moved (.tryEnqueue v)) := by
  have hcount := hR.count
  have hindex := index_position (c := c) h.accepted
  simp only [History.after, if_pos hroom]
  refine ⟨by rw [hR.same], ?_, ?_, hR.tail, ?_, ?_⟩
  · show h.accepted + 1 = h.delivered + (h.waiting ++ [v]).length
    rw [List.length_append, List.length_singleton]
    omega
  · show fetchAdd q.head = position (h.accepted + 1)
    rw [hR.head, fetchAdd_position]
  · intro k hle hlt hexp
    change h.delivered ≤ k at hle
    show (h.waiting ++ [v])[k - h.delivered]? =
      some (Function.update q.buffer (q.head &&& c.mask).toNat v (2 ^ k - 1))
    rw [hR.head, hindex]
    rcases Nat.lt_succ_iff_lt_or_eq.mp hlt with hlt | rfl
    · -- an older value is in another slot
      rw [List.getElem?_append_left (by omega), hR.early k hle hlt hexp, Function.update_of_ne]
      split
      · exact fun heq => absurd (slot_inj heq) (by omega)
      · exact slot_ne hexp
    · -- the new value is in the slot of its position
      rw [if_pos hexp, Function.update_self, List.getElem?_append_right (by omega),
        show h.accepted - h.delivered - h.waiting.length = 0 by omega]
      rfl
  · show Function.update q.buffer (q.head &&& c.mask).toNat v (c.toNat - 1) =
      if c.exp ≤ h.accepted then v else h.last
    rw [hR.head, hindex]
    -- a value past the first positions goes to the last slot
    by_cases hexp : h.accepted < c.exp
    · rw [if_pos hexp, if_neg (by omega), Function.update_of_ne (slot_ne hexp).symm, hR.last]
    · rw [if_neg hexp, if_pos (by omega), Function.update_self]

/-- The value the queue takes next. -/
theorem Agrees.next (hR : Agrees c q waiting h) {v : α} {rest : List α}
    (hw : h.waiting = v :: rest) : q.buffer (q.tail &&& c.mask).toNat = v ↔
      h.delivered < c.exp ∨ v = h.last := by
  have hcount := hR.count
  rw [hw, List.length_cons] at hcount
  rw [hR.tail, index_position]
  by_cases hexp : h.delivered < c.exp
  · have hearly := hR.early h.delivered le_rfl (by omega) hexp
    rw [hw, Nat.sub_self, List.getElem?_cons_zero] at hearly
    rw [if_pos hexp]
    exact ⟨fun _ => .inl hexp, fun _ => (Option.some.inj hearly).symm⟩
  · rw [if_neg hexp, hR.last]
    constructor
    · exact fun heq => .inr heq.symm
    · rintro (hlt | rfl)
      · exact absurd hlt hexp
      · rfl

/-- After a delivered value. -/
theorem Agrees.dequeue (hR : Agrees c q waiting h) {v : α} {rest : List α}
    (hw : h.waiting = v :: rest) :
    Agrees c ⟨Function.update q.buffer (q.tail &&& c.mask).toNat
        (moved (q.buffer (q.tail &&& c.mask).toNat)), q.head, fetchAdd q.tail⟩
      rest (h.after c moved .tryDequeue) := by
  have hcount := hR.count
  have hindex := index_position (c := c) h.delivered
  rw [hw, List.length_cons] at hcount
  simp only [History.after, hw]
  refine ⟨rfl, ?_, hR.head, ?_, ?_, ?_⟩
  · show h.accepted = h.delivered + 1 + rest.length
    omega
  · show fetchAdd q.tail = position (h.delivered + 1)
    rw [hR.tail, fetchAdd_position]
  · intro k hle hlt hexp
    change h.delivered + 1 ≤ k at hle
    change k < h.accepted at hlt
    show rest[k - (h.delivered + 1)]? = some (Function.update q.buffer _ _ (2 ^ k - 1))
    -- what is still waiting is in a slot that was not moved from
    have hearly := hR.early k (by omega) hlt hexp
    rw [hw, show k - h.delivered = k - (h.delivered + 1) + 1 by omega,
      List.getElem?_cons_succ] at hearly
    rw [hearly, hR.tail, hindex, Function.update_of_ne]
    split
    · exact fun heq => absurd (slot_inj heq) (by omega)
    · exact slot_ne hexp
  · show Function.update q.buffer _ _ (c.toNat - 1) =
      if c.exp ≤ h.delivered then moved h.last else h.last
    rw [hR.tail, hindex]
    by_cases hexp : h.delivered < c.exp
    · rw [if_pos hexp, if_neg (by omega), Function.update_of_ne (slot_ne hexp).symm, hR.last]
    · rw [if_neg hexp, if_pos (by omega), Function.update_self, hR.last]

/-- **One call.** -/
theorem Agrees.call (hR : Agrees c q waiting h) (a : Call α) :
    ((SpscBoundedQueue.call c moved q a).2 = (fifoCall c.toNat waiting a).2 ↔ Fine c h a) ∧
      (Fine c h a → Agrees c (SpscBoundedQueue.call c moved q a).1 (fifoCall c.toNat waiting a).1
        (h.after c moved a)) := by
  cases a with
  | tryEnqueue v =>
    have haccepts := hR.accepts
    simp only [SpscBoundedQueue.call, tryEnqueue, fifoCall, Fine, ← hR.same]
    by_cases hroom : h.waiting.length < c.toNat
    · rw [if_pos hroom, if_pos hroom, ← haccepts]
      by_cases hfull : q.head - q.tail > c.size
      · simp [hfull]
      · rw [if_neg hfull, hR.same]
        exact ⟨⟨fun _ => hfull, fun _ => rfl⟩, fun _ => hR.enqueue v hroom⟩
    · have hstuck : ¬ Stuck c h.delivered ↔ q.head - q.tail > c.size := by
        -- a queue with `buffer_size` values has passed the first `exp` positions
        have htwo := Nat.lt_two_pow_self (n := c.exp)
        have hcount := hR.count
        unfold Words.PowTwo.toNat at hroom
        rw [← not_iff_not, not_not, haccepts]
        constructor
        · exact fun h => .inr (.inr (.inr h))
        · rintro (hnil | hle | ⟨hacc, hdel⟩ | hstuck)
          · rw [hnil, List.length_nil] at hroom
            omega
          · omega
          · have := c.exp_pos
            have hdouble := two_pow_le (show 1 ≤ c.exp from c.exp_pos)
            omega
          · exact hstuck
      rw [if_neg hroom, if_neg hroom, hstuck]
      by_cases hfull : q.head - q.tail > c.size
      · rw [if_pos hfull, hR.same]
        refine ⟨⟨fun _ => hfull, fun _ => rfl⟩, fun _ => ?_⟩
        simp only [History.after, if_neg hroom]
        exact hR
      · simp [hfull]
  | tryDequeue =>
    have hcount := hR.count
    have hpos : q.head = q.tail ↔ h.waiting = [] ∨ 64 ≤ h.delivered := by
      rw [hR.head, hR.tail, position_eq (by omega), hcount, ← List.length_eq_zero_iff]
      constructor
      · rintro (h0 | hmany)
        · left
          omega
        · exact .inr hmany
      · rintro (h0 | hmany)
        · left
          omega
        · exact .inr hmany
    simp only [SpscBoundedQueue.call, tryDequeue, fifoCall, Fine]
    cases hw : h.waiting with
    | nil =>
      have hnil : waiting = [] := hR.same.symm.trans hw
      rw [if_pos (hpos.mpr (.inl hw)), hnil]
      refine ⟨⟨fun _ => .inl rfl, fun _ => rfl⟩, fun _ => ?_⟩
      simp only [History.after, hw]
      rw [hnil] at hR
      exact hR
    | cons v rest =>
      rw [← hR.same, hw]
      have hnext := hR.next hw
      by_cases hmany : 64 ≤ h.delivered
      · rw [if_pos (hpos.mpr (.inr hmany))]
        simp [Nat.not_lt.mpr hmany]
      · have hne : ¬ q.head = q.tail := fun heq => by
          rcases hpos.mp heq with hnil | hmany'
          · rw [hw] at hnil
            exact absurd hnil (by simp)
          · exact hmany hmany'
        rw [if_neg hne]
        refine ⟨?_, fun _ => hR.dequeue hw⟩
        simp only [List.head?_cons, Answer.dequeued.injEq, Option.some.injEq, hnext]
        constructor
        · exact fun h => .inr ⟨Nat.not_le.mp hmany, h⟩
        · rintro (hnil | ⟨-, h⟩)
          · exact absurd hnil (by simp)
          · exact h

/-- **As a FIFO.** The queue answers a sequence of calls as a FIFO of capacity `buffer_size`
    does if and only if every call of the sequence is `Fine`. -/
theorem answers_iff_fine (c : Capacity) (moved : α → α) (raw : Nat → α) (calls : List (Call α)) :
    answers (SpscBoundedQueue.call c moved) (Shared.init raw) calls =
        answers (fifoCall c.toNat) [] calls ↔
      Along (History.after c moved) (Fine c) (History.init (raw (c.toNat - 1))) calls := by
  refine answers_eq_iff (R := Agrees c) (fun q waiting h a hR => hR.call a) ?_ calls
  exact ⟨rfl, rfl, rfl, rfl, fun k _ hk => absurd hk (Nat.not_lt_zero k), rfl⟩

/-- **Not as a FIFO.** After one value has gone through a ring of two, both of the next two
    are put into the last slot, and the second one is delivered in place of the first. -/
theorem second_before_first :
    let calls : List (Call Nat) :=
      [.tryEnqueue 10, .tryDequeue, .tryEnqueue 20, .tryEnqueue 30, .tryDequeue]
    let queue := SpscBoundedQueue.call ⟨⟨1, by decide⟩, by decide⟩ fun v : Nat => v
    answers queue (Shared.init fun _ => 0) calls =
        [.enqueued true, .dequeued (some 10), .enqueued true, .enqueued true,
          .dequeued (some 30)] ∧
      answers queue (Shared.init fun _ => 0) calls ≠ answers (fifoCall 2) [] calls := by
  decide

end

end HopeThreading.SpscBoundedQueue
