import HopeThreading.Queue.SpmcMessage

namespace HopeThreading.SpmcBoundedMessageQueue

open Transition Words Broadcast

open SeqLock (Value copyWord)

/-!
# `spmc_bounded_message_queue` — delivery

A writer that begins with a message only when every consumer is less than one lap behind
(`Disciplined`) overwrites no message that a consumer has not completely copied.  So each slot
from a consumer's oldest message on holds the message of its position (`Reader`), also while
the writer is half through with the next one.
-/

variable {ι α : Type*} {n : Nat} {c : PowTwo 64}

/-! ### The condition -/

/-- The position whose slot the writer begins to write now. -/
def starting : Local n α → Option (BitVec 64)
  | .copyIn _ pos 0 => some pos
  | _ => none

/-- The position of the oldest message that a consumer has not completely copied. -/
def oldest : Local n α → Option (BitVec 64)
  | .ready pos | .readWriterPos pos _ => some pos
  | .copyOut pos i _ => some (if i < n then pos else pos + 1#64)
  | _ => none

/-- Nobody is overrun: the writer begins with a message when every consumer has copied the one
    that is a lap older. -/
def Disciplined (c : PowTwo 64) (cfg : Config (Option ι) (Shared n α) (Local n α))
    (a : Option ι × Label n α) : Prop :=
  a.1 = none → ∀ pos ∈ starting (cfg.threads none), ∀ t, ∀ old ∈ oldest (cfg.threads (some t)),
    (pos - old).toNat < c.toNat

instance [Fintype ι] (cfg : Config (Option ι) (Shared n α) (Local n α))
    (a : Option ι × Label n α) : Decidable (Disciplined c cfg a) :=
  -- the instance for words would try every word
  have (pos : BitVec 64) (t : ι) : Decidable (∀ old ∈ oldest (cfg.threads (some t)),
      (pos - old).toNat < c.toNat) := Option.decidableForallMem _
  have (pos : BitVec 64) : Decidable (∀ t, ∀ old ∈ oldest (cfg.threads (some t)),
      (pos - old).toNat < c.toNat) := inferInstanceAs (Decidable (∀ _, _))
  have : Decidable (∀ pos ∈ starting (cfg.threads none), ∀ t,
      ∀ old ∈ oldest (cfg.threads (some t)), (pos - old).toNat < c.toNat) :=
    Option.decidableForallMem _
  inferInstanceAs (Decidable (a.1 = none → _))

/-! ### A consumer -/

/-- The message `k` that a consumer is at, or the next one when it has copied that. -/
def need (k : Nat) : Local n α → Nat
  | .copyOut _ i _ => if i < n then k else k + 1
  | _ => k

/-- `1` when the writer has begun to write the slot of the next message. -/
def claimed : Local n α → Nat
  | .copyIn _ _ (_ + 1) => 1
  | _ => 0

/-- What a consumer at message `k` relies on. -/
def ConsumerOk (msgs : List (Value n α)) (k : Nat) : Local n α → Prop
  | .ready pos | .readWriterPos pos _ => pos = BitVec.ofNat 64 k
  | .copyOut pos i data =>
    pos = BitVec.ofNat 64 k ∧ ∃ m, msgs[k]? = some m ∧ ∀ w : Fin n, w < i → data w = m w
  | _ => False

/-- Consumer `t` follows the broadcast, and what it still needs is in the buffer; `writer` is
    where the writer is. -/
structure Reader (c : PowTwo 64) (tr : List (Event ι n α)) (t : ι) (buffer : Nat → Value n α)
    (writer l : Local n α) (first k : Nat) [DecidableEq ι] : Prop where
  follows : Follows tr t first k
  room : (sent tr).length + claimed writer ≤ need k l + c.toNat
  kept : ∀ j m, need k l ≤ j → (sent tr)[j]? = some m → buffer (j % c.toNat) = m
  ok : ConsumerOk (sent tr) k l

section

variable {msgs : List (Value n α)} {q q' : Shared n α} {k : Nat} {l l' : Local n α} {t : ι}
  {es : List (Event ι n α)}

/-- Positions at most one lap apart are told apart by their words. -/
theorem toNat_sub_ofNat {a b : Nat} (hle : a ≤ b) (hlap : b ≤ a + c.toNat) :
    (BitVec.ofNat 64 b - BitVec.ofNat 64 a).toNat = b - a := by
  have hhalf := c.toNat_le_half
  rw [BitVec.toNat_sub, BitVec.toNat_ofNat, BitVec.toNat_ofNat]
  omega

/-- The oldest message that a consumer still needs is at its position. -/
theorem ConsumerOk.oldest (h : ConsumerOk msgs k l) :
    oldest l = some (BitVec.ofNat 64 (need k l)) := by
  cases l with
  | ready pos => exact congrArg some h
  | readWriterPos pos data => exact congrArg some h
  | copyOut pos i data =>
    obtain ⟨rfl, -⟩ := h
    simp only [SpmcBoundedMessageQueue.oldest, need]
    split
    · rfl
    · rw [BitVec.ofNat_add]
  | _ => exact h.elim

/-- A consumer is at a message that was sent, or behind the last one. -/
theorem ConsumerOk.need_le (h : ConsumerOk msgs k l) (hk : k ≤ msgs.length) :
    need k l ≤ msgs.length := by
  cases l with
  | copyOut pos i data =>
    obtain ⟨-, m, hm, -⟩ := h
    have hlt := (List.getElem?_eq_some_iff.mp hm).1
    simp only [need]
    split <;> omega
  | _ => exact hk

/-- What a consumer relies on stays true when a message is sent. -/
theorem ConsumerOk.append (h : ConsumerOk msgs k l) (m : Value n α) :
    ConsumerOk (msgs ++ [m]) k l := by
  cases l with
  | copyOut pos i data =>
    obtain ⟨hpos, m', hm, hdata⟩ := h
    refine ⟨hpos, m', ?_, hdata⟩
    rw [List.getElem?_append_left (List.getElem?_eq_some_iff.mp hm).1, hm]
  | _ => exact h

/-- **Consumer step.** A consumer whose messages are kept goes on with its message, finds that
    there is none, or has copied it and is at the next one. -/
theorem ConsumerOk.step (hl : ConsumerOk msgs k l) (hk : k ≤ msgs.length)
    (hroom : msgs.length ≤ need k l + c.toNat)
    (hkept : ∀ j m, need k l ≤ j → msgs[j]? = some m → q.buffer (j % c.toNat) = m)
    (hpos : q.writerPos = BitVec.ofNat 64 msgs.length)
    (h : consumerStep c t q l = some (q', l', es)) :
    q' = q ∧ (es = [] ∧ ConsumerOk msgs k l' ∧ need k l ≤ need k l' ∨
      es = [.refused t] ∧ k = msgs.length ∧ ConsumerOk msgs k l' ∧ need k l' = need k l ∨
      ∃ m, msgs[k]? = some m ∧ es = [.received t m] ∧ ConsumerOk msgs (k + 1) l' ∧
        need (k + 1) l' = need k l) := by
  cases l with
  | readWriterPos readPos data =>
    obtain rfl : readPos = BitVec.ofNat 64 k := hl
    simp only [consumerStep] at h
    split at h
    · rename_i heq
      cases h
      -- at the position of the writer there is nothing left
      rw [hpos] at heq
      have hdist := toNat_sub_ofNat (c := c) hk hroom
      rw [heq, BitVec.sub_self] at hdist
      have hzero : 0 = msgs.length - k := hdist
      exact ⟨rfl, .inr (.inl ⟨rfl, by omega, rfl, rfl⟩)⟩
    · rename_i hne
      cases h
      have hlt : k < msgs.length := Nat.lt_of_le_of_ne hk fun heq => hne (heq ▸ hpos)
      refine ⟨rfl, .inl ⟨rfl, ⟨rfl, _, List.getElem?_eq_getElem hlt, fun w hw => ?_⟩, ?_⟩⟩
      · exact absurd hw (Nat.not_lt_zero _)
      · simp only [need]
        split <;> omega
  | copyOut readPos i data =>
    obtain ⟨rfl, m, hm, hdata⟩ := hl
    simp only [consumerStep, slot_ofNat] at h
    split at h
    · rename_i hi
      cases h
      have hneed : need k (.copyOut (BitVec.ofNat 64 k) i data) = k := if_pos hi
      refine ⟨rfl, .inl ⟨rfl, ⟨rfl, m, hm, fun w hw => ?_⟩, ?_⟩⟩
      · rw [hkept k m hneed.le hm, copyWord]
        by_cases heq : w = ⟨i, hi⟩
        · rw [heq, Function.update_self]
        · rw [Function.update_of_ne heq]
          exact hdata w (Nat.lt_of_le_of_ne (Nat.le_of_lt_succ hw) fun h => heq (Fin.ext h))
      · rw [hneed]
        simp only [need]
        split <;> omega
    · rename_i hi
      cases h
      have hall : data = m := by
        ext1 w
        exact hdata w (w.isLt.trans_le (Nat.le_of_not_lt hi))
      subst hall
      exact ⟨rfl, .inr (.inr ⟨data, hm, rfl, (BitVec.ofNat_add k 1).symm, (if_neg hi).symm⟩)⟩
  | ready readPos => exact absurd h (by simp [consumerStep])
  | idle => exact hl.elim
  | loadPos item => exact hl.elim
  | copyIn item pos i => exact hl.elim

end

/-! ### The invariant -/

/-- The writer is at the next position and has copied so many words. -/
def WriterOk (c : PowTwo 64) (len : Nat) (q : Shared n α) : Local n α → Prop
  | .idle | .loadPos _ => True
  | .copyIn item pos i =>
    pos = BitVec.ofNat 64 len ∧ ∀ w : Fin n, w < i → q.buffer (len % c.toNat) w = item w
  | _ => False

variable [DecidableEq ι]

/-- A thread of a consumer, created or not. -/
def Follower (c : PowTwo 64) (tr : List (Event ι n α)) (t : ι) (buffer : Nat → Value n α)
    (writer l : Local n α) : Prop :=
  l = .idle ∧ received t tr = [] ∨ ∃ first k, Reader c tr t buffer writer l first k

/-- The invariant: the writer is at the number of messages, and every consumer follows them. -/
structure Inv (c : PowTwo 64) (tr : List (Event ι n α))
    (cfg : Config (Option ι) (Shared n α) (Local n α)) : Prop where
  writerPos : cfg.shared.writerPos = BitVec.ofNat 64 (sent tr).length
  writer : WriterOk c (sent tr).length cfg.shared (cfg.threads none)
  consumers : ∀ t, Follower c tr t cfg.shared.buffer (cfg.threads none) (cfg.threads (some t))

/-- The invariant holds at the beginning. -/
theorem inv_init (raw : Nat → Value n α) : Inv c [] (program c ι raw).machine.init where
  writerPos := rfl
  writer := trivial
  consumers _ := .inl ⟨rfl, rfl⟩

section

variable {tr es : List (Event ι n α)} {cfg : Config (Option ι) (Shared n α) (Local n α)}
  {e : Event ι n α}

/-- Nothing happens to a consumer with a move of another one. -/
theorem Follower.other {t u : ι} {buffer : Nat → Value n α} {w l : Local n α}
    (h : Follower c tr t buffer w l) (he : receiver e = some u) (hne : u ≠ t) :
    Follower c (tr ++ [e]) t buffer w l := by
  have hsent : sent (tr ++ [e]) = sent tr := sent_snoc he
  rcases h with ⟨hidle, hnone⟩ | ⟨first, k, hr⟩
  · refine .inl ⟨hidle, ?_⟩
    rw [received_snoc_of_ne fun h => hne (Option.some.inj (he.symm.trans h)), hnone]
  · exact .inr ⟨first, k, hr.follows.other he hne, by rw [hsent]; exact hr.room,
      by rw [hsent]; exact hr.kept, by rw [hsent]; exact hr.ok⟩

/-- A consumer moves with an event of its own. -/
theorem Inv.consumer_moves (inv : Inv c tr cfg) {r : ι} {l : Local n α}
    (he : receiver e = some r)
    (hr : Follower c (tr ++ [e]) r cfg.shared.buffer (cfg.threads none) l) :
    Inv c (tr ++ [e]) (cfg.set (some r) cfg.shared l) := by
  have hsent : sent (tr ++ [e]) = sent tr := sent_snoc he
  have hnone : (cfg.set (some r) cfg.shared l).threads none = cfg.threads none :=
    Config.set_threads_of_ne (by simp)
  refine ⟨?_, ?_, fun t => ?_⟩
  · rw [hsent]
    exact inv.writerPos
  · rw [hsent, hnone]
    exact inv.writer
  · rw [hnone]
    by_cases htr : t = r
    · rw [htr, Config.set_threads_self]
      exact hr
    · rw [Config.set_threads_of_ne fun h => htr (Option.some.inj h)]
      exact (inv.consumers t).other he (Ne.symm htr)

/-- A consumer moves without an event. -/
theorem Inv.consumer_quiet (inv : Inv c tr cfg) {r : ι} {l : Local n α}
    (hr : Follower c tr r cfg.shared.buffer (cfg.threads none) l) :
    Inv c tr (cfg.set (some r) cfg.shared l) := by
  have hnone : (cfg.set (some r) cfg.shared l).threads none = cfg.threads none :=
    Config.set_threads_of_ne (by simp)
  refine ⟨inv.writerPos, ?_, fun t => ?_⟩
  · rw [hnone]
    exact inv.writer
  · rw [hnone]
    by_cases htr : t = r
    · rw [htr, Config.set_threads_self]
      exact hr
    · rw [Config.set_threads_of_ne fun h => htr (Option.some.inj h)]
      exact inv.consumers t

/-- The writer writes one slot at a time. -/
theorem claimed_le (l : Local n α) : claimed l ≤ 1 := by
  unfold claimed
  split <;> omega

/-- A consumer that is created now is at the position of the writer. -/
theorem Inv.created (inv : Inv c tr cfg) (r : ι) (hidle : cfg.threads (some r) = .idle) :
    Follower c (tr ++ [BroadcastEvent.created r]) r cfg.shared.buffer (cfg.threads none)
      (.ready cfg.shared.writerPos) := by
  have hsent : sent (tr ++ [BroadcastEvent.created r]) = sent tr := sent_snoc (u := r) rfl
  have hnone : received r tr = [] := by
    rcases inv.consumers r with ⟨-, hnone⟩ | ⟨first, k, hr⟩
    · exact hnone
    · exact (hidle ▸ hr.ok : ConsumerOk (sent tr) k .idle).elim
  refine .inr ⟨_, _, .created hnone, ?_, fun j m hj hm => ?_, inv.writerPos⟩
  · have hpos := c.toNat_pos
    have hclaimed := claimed_le (cfg.threads none)
    rw [hsent]
    exact Nat.add_le_add_left (by omega) _
  · -- there is no message from that position on
    rw [hsent] at hm
    exact absurd (List.getElem?_eq_some_iff.mp hm).1 (Nat.not_lt.mpr hj)

/-- A consumer takes one step, in the order of the messages. -/
theorem Inv.consumer_step (inv : Inv c tr cfg) (r : ι) {q : Shared n α} {l : Local n α}
    (h : consumerStep c r cfg.shared (cfg.threads (some r)) = some (q, l, es)) :
    Inv c (tr ++ es) (cfg.set (some r) q l) := by
  rcases inv.consumers r with ⟨hidle, -⟩ | ⟨first, k, hr⟩
  · rw [hidle] at h
    exact absurd h (by simp [consumerStep])
  have hroom : (sent tr).length ≤ need k (cfg.threads (some r)) + c.toNat :=
    (Nat.le_add_right _ _).trans hr.room
  obtain ⟨rfl, ⟨rfl, hok, hneed⟩ | ⟨rfl, -, hok, hneed⟩ | ⟨m, hm, rfl, hok, hneed⟩⟩ :=
    hr.ok.step hr.follows.le_sent hroom hr.kept inv.writerPos h
  · rw [List.append_nil]
    exact inv.consumer_quiet (.inr ⟨first, k, hr.follows,
      hr.room.trans (Nat.add_le_add_right hneed _),
      fun j m hj => hr.kept j m (hneed.trans hj), hok⟩)
  · have hsent : sent (tr ++ [BroadcastEvent.refused r]) = sent tr := sent_snoc (u := r) rfl
    refine inv.consumer_moves (r := r) rfl (.inr ⟨first, k, hr.follows.refuse, ?_, ?_, ?_⟩)
    · rw [hsent, hneed]
      exact hr.room
    · rw [hsent, hneed]
      exact hr.kept
    · rw [hsent]
      exact hok
  · have hsent : sent (tr ++ [BroadcastEvent.received r m]) = sent tr := sent_snoc (u := r) rfl
    refine inv.consumer_moves (r := r) rfl (.inr ⟨first, k + 1, hr.follows.receive hm, ?_, ?_, ?_⟩)
    · rw [hsent, hneed]
      exact hr.room
    · rw [hsent, hneed]
      exact hr.kept
    · rw [hsent]
      exact hok

/-! ### The writer -/

/-- The condition in terms of the messages: every consumer has room for one more. -/
theorem Inv.clear (inv : Inv c tr cfg) (allowed : Disciplined c cfg (none, .step))
    {item : Value n α} {pos : BitVec 64} {i : Nat} (hl : cfg.threads none = .copyIn item pos i)
    {t : ι} {first k : Nat}
    (hr : Reader c tr t cfg.shared.buffer (cfg.threads none) (cfg.threads (some t)) first k) :
    (sent tr).length < need k (cfg.threads (some t)) + c.toNat := by
  have hroom := hr.room
  have hwriter := inv.writer
  rw [hl] at hroom hwriter
  cases i with
  | succ i => exact hroom
  | zero =>
    -- it begins now, so the condition is asked now
    have hlap := allowed rfl pos (by rw [hl]; rfl) t _ hr.ok.oldest
    have hle := hr.ok.need_le hr.follows.le_sent
    rw [hwriter.1, toNat_sub_ofNat hle hroom] at hlap
    omega

/-- The writer moves without publishing. -/
theorem Inv.writer_moves (inv : Inv c tr cfg) {q : Shared n α} {l : Local n α}
    (hpos : q.writerPos = cfg.shared.writerPos) (hw : WriterOk c (sent tr).length q l)
    (hreader : ∀ t first k,
      Reader c tr t cfg.shared.buffer (cfg.threads none) (cfg.threads (some t)) first k →
      Reader c tr t q.buffer l (cfg.threads (some t)) first k) : Inv c tr (cfg.set none q l) := by
  refine ⟨hpos.trans inv.writerPos, ?_, fun t => ?_⟩
  · rw [Config.set_threads_self]
    exact hw
  · rw [Config.set_threads_self, Config.set_threads_of_ne (by simp)]
    rcases inv.consumers t with hidle | ⟨first, k, hr⟩
    · exact .inl hidle
    · exact .inr ⟨first, k, hreader t first k hr⟩

/-- A word of the next message goes into a slot that no consumer needs. -/
theorem Inv.write (inv : Inv c tr cfg) (allowed : Disciplined c cfg (none, .step))
    {item : Value n α} {pos : BitVec 64} {i : Nat} (hl : cfg.threads none = .copyIn item pos i)
    (hi : i < n) :
    Inv c tr (cfg.set none { cfg.shared with
      buffer := Function.update cfg.shared.buffer (slot c pos)
        (copyWord (cfg.shared.buffer (slot c pos)) item ⟨i, hi⟩) } (.copyIn item pos (i + 1))) := by
  have hwriter := inv.writer
  rw [hl] at hwriter
  obtain ⟨rfl, hcopied⟩ := hwriter
  rw [slot_ofNat]
  refine inv.writer_moves rfl ⟨rfl, fun w hw => ?_⟩ fun t first k hr => ?_
  · refine (congrFun (Function.update_self ..) w).trans ?_
    rw [copyWord]
    by_cases heq : w = ⟨i, hi⟩
    · rw [heq, Function.update_self]
    · rw [Function.update_of_ne heq]
      exact hcopied w (Nat.lt_of_le_of_ne (Nat.le_of_lt_succ hw) fun h => heq (Fin.ext h))
  · have hclear := inv.clear allowed hl hr
    refine { hr with room := hclear, kept := fun j m hj hm => ?_ }
    have hlt := (List.getElem?_eq_some_iff.mp hm).1
    have hne : j % c.toNat ≠ (sent tr).length % c.toNat := fun heq =>
      absurd (c.eq_of_mod_eq (m := need k (cfg.threads (some t))) (by omega) (by omega) heq)
        (by omega)
    exact (Function.update_of_ne hne ..).trans (hr.kept j m hj hm)

/-- The message is complete and is published. -/
theorem Inv.publish (inv : Inv c tr cfg) (allowed : Disciplined c cfg (none, .step))
    {item : Value n α} {pos : BitVec 64} {i : Nat} (hl : cfg.threads none = .copyIn item pos i)
    (hi : n ≤ i) :
    Inv c (tr ++ [BroadcastEvent.sent item])
      (cfg.set none { cfg.shared with writerPos := pos + 1#64 } .idle) := by
  have hsent : sent (tr ++ [BroadcastEvent.sent item]) = sent tr ++ [item] := sent_snoc_sent
  have hwriter := inv.writer
  rw [hl] at hwriter
  obtain ⟨rfl, hcopied⟩ := hwriter
  -- all words are copied when the position moves
  have hall : cfg.shared.buffer ((sent tr).length % c.toNat) = item := by
    ext1 w
    exact hcopied w (w.isLt.trans_le hi)
  refine ⟨?_, ?_, fun t => ?_⟩
  · rw [hsent, List.length_append, List.length_singleton]
    exact (BitVec.ofNat_add _ 1).symm
  · rw [Config.set_threads_self]
    trivial
  rw [Config.set_threads_self, Config.set_threads_of_ne (by simp)]
  rcases inv.consumers t with ⟨hidle, hnone⟩ | ⟨first, k, hr⟩
  · refine .inl ⟨hidle, ?_⟩
    rw [received_snoc_of_ne (by simp [receiver]), hnone]
  · have hclear := inv.clear allowed hl hr
    refine .inr ⟨first, k, hr.follows.send item, ?_, fun j m hj hm => ?_, ?_⟩
    · rw [hsent, List.length_append]
      exact hclear
    · rw [hsent] at hm
      rcases Nat.lt_or_ge j (sent tr).length with hlt | hge
      · rw [List.getElem?_append_left hlt] at hm
        exact hr.kept j m hj hm
      · have hlt := (List.getElem?_eq_some_iff.mp hm).1
        rw [List.length_append, List.length_singleton] at hlt
        obtain rfl : j = (sent tr).length := by omega
        rw [List.getElem?_concat_length] at hm
        exact hall.trans (Option.some.inj hm)
    · rw [hsent]
      exact hr.ok.append item

/-- The writer takes one step. -/
theorem Inv.writer_step (inv : Inv c tr cfg) (allowed : Disciplined c cfg (none, .step))
    {q : Shared n α} {l : Local n α}
    (h : writerStep c cfg.shared (cfg.threads none) = some (q, l, es)) :
    Inv c (tr ++ es) (cfg.set none q l) := by
  generalize hw : cfg.threads none = w at h
  cases w with
  | loadPos item =>
    cases h
    rw [List.append_nil]
    refine inv.writer_moves rfl ⟨inv.writerPos, fun w hlt => absurd hlt (Nat.not_lt_zero _)⟩
      fun t first k hr => { hr with room := ?_ }
    exact (Nat.le_add_right _ _).trans hr.room
  | copyIn item pos i =>
    simp only [writerStep] at h
    split at h <;> cases h
    · rename_i hi
      rw [List.append_nil]
      exact inv.write allowed hw hi
    · rename_i hi
      exact inv.publish allowed hw (Nat.le_of_not_lt hi)
  | _ => exact absurd h (by simp [writerStep])

end

/-! ### Delivery -/

/-- **Run lemma.**  The invariant holds in every run where nobody is overrun. -/
theorem Inv.of_run (raw : Nat → Value n α) {tr : List (Event ι n α)}
    {cfg : Config (Option ι) (Shared n α) (Local n α)}
    (run : (program c ι raw).machine.RunIf (Disciplined c) tr cfg) : Inv c tr cfg := by
  refine Program.invariant (inv_init raw) ?_ run
  intro tr cfg t k q l es inv allowed hstep
  rcases next_cases c hstep with ⟨item, rfl, hl, rfl, rfl, rfl⟩ | ⟨r, rfl, hl, rfl, rfl, rfl⟩ |
    ⟨r, readPos, data, rfl, hl, rfl, rfl, rfl⟩ | ⟨rfl, rfl, hacc⟩ | ⟨r, rfl, hacc⟩
  · rw [List.append_nil]
    refine inv.writer_moves rfl trivial fun t first k hr => { hr with room := ?_ }
    exact (Nat.le_add_right _ _).trans hr.room
  · exact inv.consumer_moves rfl (inv.created r hl)
  · -- the call begins at the same message
    rcases inv.consumers r with ⟨hidle, -⟩ | ⟨first, k, hr⟩
    · exact absurd (hidle.symm.trans hl) (by simp)
    · rw [hl] at hr
      rw [List.append_nil]
      exact inv.consumer_quiet (.inr ⟨first, k, hr.follows, hr.room, hr.kept, hr.ok⟩)
  · exact inv.writer_step allowed hacc
  · exact inv.consumer_step r hacc

/-- What consumer `t` can rely on. -/
structure Delivered (c : PowTwo 64) (raw : Nat → Value n α) (tr : List (Event ι n α))
    (cfg : Config (Option ι) (Shared n α) (Local n α)) (t : ι) : Prop where
  /-- It has received the messages since its creation, in order, each whole. -/
  intact : received t tr <+: since t tr
  /-- When its next access finds that there is none, it has received all of them. -/
  complete : ∀ cfg' es, (program c ι raw).machine.next cfg (some t, .step) = some (cfg', es) →
    .refused t ∈ es → received t tr = since t tr

end HopeThreading.SpmcBoundedMessageQueue
