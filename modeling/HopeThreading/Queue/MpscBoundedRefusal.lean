import HopeThreading.Queue.MpscBounded
import HopeThreading.Transition.History

namespace HopeThreading.MpscBoundedQueue

open Transition

open MpmcBoundedQueue (Capacity)

/-!
# `mpsc_bounded_queue` — refusing values

`try_enqueue` refuses when `cur_head - m_tail > m_buffer_size`, an unsigned difference of a
value that the producer has loaded before and of one that it loads now.  In between other
producers and the consumer may have moved both ends past `cur_head`; the difference is then a
huge number, and the call refuses although the queue is empty (`refused_empty`).

As long as `m_tail` has not passed the `cur_head` of a check (`NotPassed`), a refusing check
finds the queue full at that very instant (`justified_of_run`).
-/

variable {ι α : Type*}

/-! ### What is claimed and not consumed -/

/-- `m_head - m_tail >= Size`, with both read at the same instant. -/
def Full (c : Capacity) (q : Shared α) : Prop := c.size ≤ q.head - q.tail

instance (c : Capacity) (q : Shared α) : Decidable (Full c q) :=
  inferInstanceAs (Decidable (_ ≤ _))

/-- The consumer has found a claimed position at `m_tail`. -/
def consumes : Local α → Bool
  | .dequeue .loadHead => false
  | .dequeue _ => true
  | _ => false

/-- The words are the numbers of claimed and consumed positions, whatever is in the cells. -/
structure Counted (acc del : Nat) (s : Config (Option ι) (Shared α) (Local α)) : Prop where
  head : s.shared.head = BitVec.ofNat 64 acc
  tail : s.shared.tail = BitVec.ofNat 64 del
  le : del ≤ acc
  lt : consumes (s.threads none) = true → del < acc

section

variable {c : Capacity} {moved : α → α} {raw : Nat → α} {acc del : Nat}
  {s : Config (Option ι) (Shared α) (Local α)}

/-- In a full queue `Size` positions are claimed and not consumed. -/
theorem Counted.add_le (h : Counted acc del s) (hfull : Full c s.shared) :
    del + c.toNat ≤ acc := by
  have hle := h.le
  have hsub : s.shared.head - s.shared.tail = BitVec.ofNat 64 (acc - del) := by
    rw [h.head, h.tail]
    conv_lhs => rw [← Nat.sub_add_cancel hle, BitVec.ofNat_add]
    exact BitVec.add_sub_cancel _ _
  unfold Full at hfull
  rw [hsub, BitVec.le_def, c.toNat_size, BitVec.toNat_ofNat] at hfull
  have hmod := Nat.mod_le (acc - del) (2 ^ 64)
  omega

variable [DecidableEq ι]

/-- A move that leaves both ends alone. -/
theorem Counted.quiet (h : Counted acc del s) {u : Option ι} {q : Shared α} {l : Local α}
    (hhead : q.head = s.shared.head) (htail : q.tail = s.shared.tail)
    (hl : u = none → consumes l = true → del < acc) : Counted acc del (s.set u q l) := by
  refine ⟨hhead.trans h.head, htail.trans h.tail, h.le, fun hcons => ?_⟩
  by_cases hu : none = u
  · subst hu
    rw [Config.set_threads_self] at hcons
    exact hl rfl hcons
  · rw [Config.set_threads_of_ne hu] at hcons
    exact h.lt hcons

/-- An access of a producer. -/
theorem Counted.tryEnqueue_step (h : Counted acc del s) {t : ι} {v : α} {pc : EnqueuePc}
    {q : Shared α} {l : Local α} {es : List (Event ι α)}
    (heq : (q, l, es) = tryEnqueue c s.shared t v pc) :
    Counted (acc + (accepted es).length) (del + (dequeued es).length) (s.set (some t) q l) := by
  cases pc with
  | exchange pos =>
    simp only [tryEnqueue] at heq
    split at heq
    · rename_i hpos
      cases heq
      refine ⟨?_, h.tail, Nat.le_succ_of_le h.le, fun hcons => ?_⟩
      · show pos + 1#64 = BitVec.ofNat 64 (acc + 1)
        rw [← hpos, h.head, BitVec.ofNat_add]
      · rw [Config.set_threads_of_ne (by simp)] at hcons
        exact Nat.lt_succ_of_lt (h.lt hcons)
    · cases heq
      exact h.quiet rfl rfl (by simp)
  | compareTail pos =>
    simp only [tryEnqueue] at heq
    split at heq <;> cases heq <;> exact h.quiet rfl rfl (by simp)
  | _ =>
    cases heq
    exact h.quiet rfl rfl (by simp)

/-- An access of the consumer. -/
theorem Counted.tryDequeue_step (h : Counted acc del s) {pc : DequeuePc α} {q : Shared α}
    {l : Local α} {es : List (Event ι α)} (hl : s.threads none = .dequeue pc)
    (heq : (q, l, es) = tryDequeue c moved s.shared pc) :
    Counted (acc + (accepted es).length) (del + (dequeued es).length) (s.set none q l) := by
  have hlt := h.lt
  rw [hl] at hlt
  cases pc with
  | loadHead =>
    simp only [tryDequeue] at heq
    split at heq
    · cases heq
      exact h.quiet rfl rfl (by simp [consumes])
    · rename_i hne
      cases heq
      refine h.quiet rfl rfl fun _ _ => ?_
      -- different words are different numbers
      rcases Nat.eq_or_lt_of_le h.le with heq | hlt
      · exact absurd (by rw [h.head, h.tail, heq]) hne
      · exact hlt
  | loadReady =>
    simp only [tryDequeue] at heq
    split at heq <;> cases heq
    · exact h.quiet rfl rfl (by simp [consumes])
    · exact h.quiet rfl rfl fun _ _ => hlt rfl
  | readValue =>
    cases heq
    exact h.quiet rfl rfl fun _ _ => hlt rfl
  | clearReady v =>
    cases heq
    exact h.quiet rfl rfl fun _ _ => hlt rfl
  | incrementTail v =>
    cases heq
    refine ⟨h.head, ?_, hlt rfl, fun hcons => ?_⟩
    · show s.shared.tail + 1#64 = BitVec.ofNat 64 (del + 1)
      rw [h.tail, BitVec.ofNat_add]
    · rw [Config.set_threads_self] at hcons
      exact absurd hcons (by simp [consumes])

/-- **Run lemma.** Also in a run that overfills the ring. -/
theorem Counted.of_run {tr : List (Event ι α)}
    {ok : Config (Option ι) (Shared α) (Local α) → Option ι × Label α → Prop}
    (run : (program ι c moved raw).machine.RunIf ok tr s) :
    Counted (accepted tr).length (dequeued tr).length s := by
  refine Program.invariant (P := program ι c moved raw)
    (I := fun tr s => Counted (accepted tr).length (dequeued tr).length s) ?_ ?_ run
  · refine ⟨rfl, rfl, Nat.le_refl 0, fun h => ?_⟩
    exact absurd h (by simp [Program.machine, program, consumes])
  · intro tr s u k q l es h _ hnext
    have hacc : (accepted (tr ++ es)).length = (accepted tr).length + (accepted es).length := by
      rw [accepted, List.filterMap_append, List.length_append]
      rfl
    have hdel : (dequeued (tr ++ es)).length = (dequeued tr).length + (dequeued es).length := by
      rw [dequeued, List.filterMap_append, List.length_append]
      rfl
    rw [hacc, hdel]
    rcases next_cases hnext with ⟨-, rfl, rfl, hcall⟩ | ⟨t, v, pc, rfl, -, heq⟩ | ⟨pc, rfl, hl, heq⟩
    · refine h.quiet rfl rfl fun hu hcons => ?_
      rcases hcall with ⟨t, v, rfl, -⟩ | ⟨-, rfl⟩
      · exact absurd hu (by simp)
      · exact absurd hcons (by simp [consumes])
    · exact h.tryEnqueue_step heq
    · exact h.tryDequeue_step hl heq

end

/-! ### Refusals and their reasons -/

/-- What is written down at each step: who acts, whether a call of `try_enqueue` starts, whether
    the queue is full right before the step, and whether a `try_enqueue` returns `false` with
    it. -/
structure Note (ι : Type*) where
  thread : Option ι
  starts : Bool
  full : Bool
  refuses : Bool

/-- The start of a `try_enqueue`. -/
def Label.starts : Label α → Bool
  | .tryEnqueue _ => true
  | _ => false

/-- The return of `false` from a `try_enqueue`. -/
def Event.refuses : Event ι α → Bool
  | .enqueueReturned _ ok => !ok
  | _ => false

/-- The note of a step. -/
def note [DecidableEq ι] (c : Capacity) (moved : α → α) (raw : Nat → α)
    (s : Config (Option ι) (Shared α) (Local α)) (a : Option ι × Label α) : List (Note ι) :=
  [{ thread := a.1
     starts := a.2.starts
     full := decide (Full c s.shared)
     refuses := ((program ι c moved raw).machine.next s a).any fun r => r.2.any Event.refuses }]

/-- Every refusal has an instant at which the queue was full: a step that is not before the
    start of the call. -/
def Justified (hist : List (Note ι)) : Prop :=
  ∀ h₁ n h₂, hist = h₁ ++ n :: h₂ → n.refuses = true →
    ∃ h₃ m h₄, h₁ ++ [n] = h₃ ++ m :: h₄ ∧ m.full = true ∧
      ∀ k ∈ m :: h₄, k.thread = n.thread → k.starts = false

/-- A check finds its `cur_head` between `m_tail` and `m_head`. -/
def Between (q : Shared α) : Local α → Prop
  | .enqueue _ (.compareTail curHead) => q.head - curHead ≤ q.head - q.tail
  | .enqueue _ .loadHead | .enqueue _ (.exchange _) | .enqueue _ (.writeValue _)
  | .enqueue _ (.storeReady _) | .dequeue _ | .idle => True

/-- `m_tail` has not passed the `cur_head` of a check. -/
def NotPassed (s : Config (Option ι) (Shared α) (Local α)) (a : Option ι × Label α) : Prop :=
  Between s.shared (s.threads a.1)

instance (q : Shared α) : ∀ l, Decidable (Between q l)
  | .enqueue _ (.compareTail _) => inferInstanceAs (Decidable (_ ≤ _))
  | .enqueue _ .loadHead | .enqueue _ (.exchange _) | .enqueue _ (.writeValue _)
  | .enqueue _ (.storeReady _) | .dequeue _ | .idle => isTrue trivial

instance (s : Config (Option ι) (Shared α) (Local α)) (a : Option ι × Label α) :
    Decidable (NotPassed s a) := inferInstanceAs (Decidable (Between _ _))

/-- A refusal that finds the queue full is justified by itself. -/
theorem Justified.snoc {hist : List (Note ι)} (h : Justified hist) {n : Note ι}
    (hn : n.refuses = true → n.full = true ∧ n.starts = false) : Justified (hist ++ [n]) := by
  intro h₁ m h₂ heq hm
  rcases List.eq_nil_or_concat h₂ with rfl | ⟨h₂', k, rfl⟩
  · obtain ⟨rfl, hnm⟩ := List.append_inj' heq rfl
    obtain rfl := (List.cons.inj hnm).1
    refine ⟨hist, n, [], rfl, (hn hm).1, fun k hk _ => ?_⟩
    rw [List.mem_singleton.mp hk]
    exact (hn hm).2
  · -- an earlier refusal keeps its reason
    rw [List.concat_eq_append, ← List.cons_append, ← List.append_assoc] at heq
    exact h h₁ m h₂' (List.append_inj' heq rfl).1 hm

section

variable {c : Capacity} {moved : α → α} {raw : Nat → α}

/-- Between the ends, a difference that is too large shows that the queue is full. -/
theorem full_of_between {q : Shared α} {curHead : BitVec 64}
    (hbetween : q.head - curHead ≤ q.head - q.tail) (h : curHead - q.tail > c.size) :
    Full c q := by
  have hsum : curHead - q.tail = q.head - q.tail - (q.head - curHead) := by bv_omega
  rw [hsum, gt_iff_lt, BitVec.lt_def, BitVec.toNat_sub_of_le hbetween] at h
  rw [Full, BitVec.le_def]
  omega

variable [DecidableEq ι] {s : Config (Option ι) (Shared α) (Local α)}

/-- An access that returns `false` is a check of its producer. -/
theorem next_refuses {a : Option ι × Label α} {s' : Config (Option ι) (Shared α) (Local α)}
    {es : List (Event ι α)} (h : (program ι c moved raw).machine.next s a = some (s', es))
    (hes : es.any Event.refuses = true) :
    a.2.starts = false ∧ ∃ v curHead, s.threads a.1 = .enqueue v (.compareTail curHead) ∧
      curHead - s.shared.tail > c.size := by
  obtain ⟨u, k⟩ := a
  obtain ⟨q, l, hnext, -⟩ := Program.next_cases h
  have hnext : next c moved u s.shared (s.threads u) k = some (q, l, es) := hnext
  have hstarts : k.starts = false := by
    cases k with
    | tryEnqueue v =>
      simp only [next] at hnext
      split at hnext
      · cases hnext
        exact absurd hes (by simp)
      · exact absurd hnext (by simp)
    | _ => rfl
  refine ⟨hstarts, ?_⟩
  rcases next_cases hnext with ⟨-, -, rfl, -⟩ | ⟨t, v, pc, rfl, hl, heq⟩ | ⟨pc, rfl, hl, heq⟩
  · exact absurd hes (by simp)
  · cases pc with
    | compareTail pos =>
      -- the only access that refuses
      simp only [tryEnqueue] at heq
      split at heq
      · rename_i hgt
        exact ⟨v, pos, hl, hgt⟩
      · cases heq
        exact absurd hes (by simp)
    | exchange pos =>
      simp only [tryEnqueue] at heq
      split at heq <;> cases heq <;> exact absurd hes (by simp [Event.refuses])
    | _ =>
      cases heq
      exact absurd hes (by simp [Event.refuses])
  · cases pc with
    | loadHead =>
      simp only [tryDequeue] at heq
      split at heq <;> cases heq <;> exact absurd hes (by simp [Event.refuses])
    | loadReady =>
      simp only [tryDequeue] at heq
      split at heq <;> cases heq <;> exact absurd hes (by simp [Event.refuses])
    | _ =>
      cases heq
      exact absurd hes (by simp [Event.refuses])

/-- **The reason.** In every run in which `m_tail` does not pass the `cur_head` of a check, every
    `try_enqueue` that returns `false` had an instant at which the queue was full, and a full
    queue has `Size` positions that are claimed and not consumed. -/
theorem justified_of_run {tr : List (Event ι α ⊕ Note ι)}
    (run : ((program ι c moved raw).machine.recording (note c moved raw)).RunIf NotPassed tr s) :
    Justified (Machine.records tr) ∧ (Full c s.shared →
      (dequeued (Machine.events tr)).length + c.toNat ≤
        (accepted (Machine.events tr)).length) := by
  refine ⟨?_, (Counted.of_run run.forget).add_le⟩
  refine run.invariant_records (I := fun hist _ => Justified hist) (J := fun _ _ => True)
    (fun _ _ _ => trivial) ?_ ?_
  · intro h₁ n h₂ heq
    exact absurd heq (by simp)
  · intro hist tr s a s' es _ h hok hnext
    refine h.snoc fun hrefuses => ?_
    simp only [hnext, Option.any_some] at hrefuses
    obtain ⟨hstarts, v, curHead, hl, hgt⟩ := next_refuses hnext hrefuses
    refine ⟨decide_eq_true (full_of_between ?_ hgt), hstarts⟩
    unfold NotPassed at hok
    rwa [hl] at hok

end

/-- Three values in two cells; the fourth one is refused. -/
theorem justified_of_run_two : ∃ tr s,
    ((program (Fin 1) ⟨⟨1, by decide⟩, by decide⟩ (fun v : Nat => v) fun _ => 0).machine.recording
      (note ⟨⟨1, by decide⟩, by decide⟩ (fun v : Nat => v) fun _ => 0)).RunIf NotPassed tr s ∧
    (Machine.records tr).any Note.refuses = true ∧ Justified (Machine.records tr) ∧
    (Full ⟨⟨1, by decide⟩, by decide⟩ s.shared → (dequeued (Machine.events tr)).length + 2 ≤
      (accepted (Machine.events tr)).length) := by
  obtain ⟨tr, s, run, hrefuses⟩ := Machine.exists_runIf
    (M := (program (Fin 1) ⟨⟨1, by decide⟩, by decide⟩ (fun v : Nat => v)
      fun _ => 0).machine.recording
        (note ⟨⟨1, by decide⟩, by decide⟩ (fun v : Nat => v) fun _ => 0)) (A := NotPassed)
    (P := fun tr _ => (Machine.records tr).any Note.refuses = true)
    ((some 0, Label.tryEnqueue 10) :: List.replicate 5 (some 0, Label.step) ++
      (some 0, Label.tryEnqueue 20) :: List.replicate 5 (some 0, Label.step) ++
      (some 0, Label.tryEnqueue 30) :: List.replicate 5 (some 0, Label.step) ++
      (some 0, Label.tryEnqueue 40) :: List.replicate 2 (some 0, Label.step)) (by decide +kernel)
  exact ⟨tr, s, run, hrefuses, justified_of_run run⟩

/-- **The empty queue.** A producer that has loaded `m_head` is overtaken by another one and by
    the consumer, and refuses; the queue was never full. -/
theorem refused_empty : ∃ tr s,
    ((program (Fin 2) ⟨⟨1, by decide⟩, by decide⟩ (fun v : Nat => v) fun _ => 0).machine.recording
      (note ⟨⟨1, by decide⟩, by decide⟩ (fun v : Nat => v) fun _ => 0)).Run tr s ∧
    s.shared.head = s.shared.tail ∧ ¬ Justified (Machine.records tr) := by
  obtain ⟨tr, s, run, hempty, hrefuses, hnever⟩ := Machine.exists_run
    (M := (program (Fin 2) ⟨⟨1, by decide⟩, by decide⟩ (fun v : Nat => v)
      fun _ => 0).machine.recording
        (note ⟨⟨1, by decide⟩, by decide⟩ (fun v : Nat => v) fun _ => 0))
    (P := fun tr s => s.shared.head = s.shared.tail ∧
      (Machine.records tr).any Note.refuses = true ∧
      (Machine.records tr).all (fun n => !n.full) = true)
    ((some 0, Label.tryEnqueue 10) :: (some 0, Label.step) ::
      (some 1, Label.tryEnqueue 20) :: List.replicate 5 (some 1, Label.step) ++
      (none, Label.tryDequeue) :: List.replicate 5 (none, Label.step) ++ [(some 0, Label.step)])
    (by decide +kernel)
  refine ⟨tr, s, run, hempty, fun h => ?_⟩
  obtain ⟨n, hn, hrefused⟩ := List.any_eq_true.mp hrefuses
  obtain ⟨h₁, h₂, heq⟩ := List.append_of_mem hn
  obtain ⟨h₃, m, h₄, hsplit, hfull, -⟩ := h h₁ n h₂ heq hrefused
  have hm : m ∈ Machine.records tr := by
    have hmem : m ∈ h₁ ++ [n] := by rw [hsplit]; simp
    rw [heq]
    rcases List.mem_append.mp hmem with hmem | hmem
    · exact List.mem_append_left _ hmem
    · rw [List.mem_singleton.mp hmem]
      simp
  have := List.all_eq_true.mp hnever m hm
  rw [hfull] at this
  exact absurd this (by decide)

end HopeThreading.MpscBoundedQueue
