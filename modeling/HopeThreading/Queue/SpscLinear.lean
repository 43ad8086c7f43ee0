import HopeThreading.Queue.SpscSafety
import HopeThreading.Transition.Buffer
import HopeThreading.Transition.History

namespace HopeThreading.SpscQueue

open Transition

open Buffer (Op Answer)

/-!
# `spsc_queue` — a linearizable FIFO

A value is in the queue from the store of its link on, and out of it with the store to `m_tail`.
A `try_dequeue` that returns `false` has read a null link behind `m_tail`, which at that access
means that nothing waits.  So the calls after construction are those of a FIFO, whatever nodes the
cache hands out (`calls_linear_of_run`).
-/

variable {α : Type*}

/-- The operation that takes effect with an event. -/
def operation : Event α → Option (Op α × Answer α)
  | .enqueued v => some (.enqueue v, .accepted true)
  | .dequeued v => some (.dequeue, .taken (some v))
  | .refused => some (.dequeue, .taken none)

/-- The operations in the order in which they take effect. -/
def history (tr : List (Event α)) : List (Op α × Answer α) := tr.filterMap operation

/-- The call that an action starts. -/
def calling (_ : State α) : Action α → List (Op α)
  | .enqueue v => [.enqueue v]
  | .tryDequeue => [.dequeue]
  | _ => []

/-- The value of an `enqueue` that is not linked yet. -/
def Producer.entering : Producer α → Option α
  | .compareCopy v | .loadTail v | .compareAgain v | .takeFirst v | .writeValue v _ | .newNode v
  | .clearNext v _ | .storeLink v _ => some v
  | .idle | .storeHead _ | .faulted => none

/-- A `try_dequeue` has not taken effect. -/
def Consumer.leaving : Consumer α → Bool
  | .idle => false
  | _ => true

/-- What the threads have called and has not taken effect; the constructor's own calls do not
    count. -/
def State.entering (s : State α) : Option α :=
  match s.phase with
  | .ready => s.producer.entering
  | _ => none

/-- The consumer is in a `try_dequeue` that has taken nothing yet. -/
def State.leaving (s : State α) : Bool :=
  match s.phase with
  | .ready => s.consumer.leaving
  | _ => false

section

variable (tr es : List (Event α))

@[simp] theorem history_append : history (tr ++ es) = history tr ++ history es :=
  List.filterMap_append

@[simp] theorem puts_history : Buffer.puts (history tr) = enqueued tr := by
  unfold Buffer.puts history enqueued
  rw [List.filterMap_filterMap]
  congr 1
  ext e
  cases e <;> rfl

@[simp] theorem takes_history : Buffer.takes (history tr) = dequeued tr := by
  unfold Buffer.takes history dequeued
  rw [List.filterMap_filterMap]
  congr 1
  ext e
  cases e <;> rfl

end

/-! ### What an access answers -/

section

variable {g : Ghost α} {q q' : Shared α} {l l' : Producer α} {m m' : Consumer α}
  {es : List (Event α)}

/-- An access of `enqueue` links its value, or nothing takes effect. -/
theorem enqueue_answer (h : enqueue q l = some (q', l', es)) (hsound : l' ≠ .faulted) :
    (history es = [] ∧ l'.entering = l.entering) ∨
      ∃ v, history es = [(.enqueue v, .accepted true)] ∧ l.entering = some v ∧
        l'.entering = none := by
  cases l with
  | idle => exact absurd h (by simp [enqueue])
  | faulted => exact absurd h (by simp [enqueue])
  | compareCopy v =>
    simp only [enqueue] at h
    split at h <;> cases h <;> exact .inl ⟨rfl, rfl⟩
  | loadTail v => cases h; exact .inl ⟨rfl, rfl⟩
  | compareAgain v =>
    simp only [enqueue] at h
    split at h <;> cases h <;> exact .inl ⟨rfl, rfl⟩
  | takeFirst v =>
    simp only [enqueue] at h
    split at h
    · cases h; exact absurd rfl hsound
    · split at h <;> cases h
      · exact absurd rfl hsound
      · exact .inl ⟨rfl, rfl⟩
  | writeValue v n =>
    simp only [enqueue] at h
    split at h <;> cases h
    · exact absurd rfl hsound
    · exact .inl ⟨rfl, rfl⟩
  | newNode v => cases h; exact .inl ⟨rfl, rfl⟩
  | clearNext v n =>
    simp only [enqueue] at h
    split at h <;> cases h
    · exact absurd rfl hsound
    · exact .inl ⟨rfl, rfl⟩
  | storeLink v n =>
    -- the link makes the value part of the queue
    simp only [enqueue] at h
    split at h <;> cases h
    · exact absurd rfl hsound
    · exact .inr ⟨v, rfl, rfl, rfl⟩
  | storeHead n => cases h; exact .inl ⟨rfl, rfl⟩

/-- An access of `try_dequeue` takes a value out, finds none, or nothing takes effect. -/
theorem Inv.tryDequeue_answer (inv : Inv g q l m) (h : tryDequeue q m = some (q', m', es))
    (hsound : m' ≠ .faulted) :
    (es = [] ∧ m'.leaving = m.leaving) ∨
      m.leaving = true ∧ m'.leaving = false ∧
        ((∃ v, es = [.dequeued v]) ∨ es = [.refused] ∧ g.accepted.length ≤ g.taken) := by
  cases m with
  | idle => exact absurd h (by simp [tryDequeue])
  | faulted => exact absurd h (by simp [tryDequeue])
  | testNext =>
    simp only [tryDequeue] at h
    split at h
    · cases h; exact absurd rfl hsound
    · -- there is no node behind the tail
      rename_i hnull
      cases h
      refine .inr ⟨rfl, rfl, .inr ⟨rfl, ?_⟩⟩
      by_contra hlt
      exact inv.tailNext_ne_none (by omega) hnull
    · cases h; exact .inl ⟨rfl, rfl⟩
  | readNext =>
    simp only [tryDequeue] at h
    split at h <;> cases h
    · exact absurd rfl hsound
    · exact .inl ⟨rfl, rfl⟩
  | readValue p =>
    simp only [tryDequeue] at h
    split at h <;> cases h
    · exact absurd rfl hsound
    · exact .inl ⟨rfl, rfl⟩
  | readNextAgain v =>
    simp only [tryDequeue] at h
    split at h <;> cases h
    · exact absurd rfl hsound
    · exact .inl ⟨rfl, rfl⟩
  | storeTail v p => cases h; exact .inr ⟨rfl, rfl, .inl ⟨v, rfl⟩⟩

end

/-! ### Every run -/

section

variable {preAlloc : Nat} {dummy : α} {tr es : List (Event α)} {s s' : State α}
  {calls : List (Op α)} {g : Ghost α} {q : Shared α} {l : Producer α} {m : Consumer α}

/-- The queue answers the calls as a FIFO does, with every call at one access between its start and
    its end. -/
def Linear (calls : List (Op α)) (tr : List (Event α)) (s : State α) : Prop :=
  Buffer.Linearizable (fun _ => true) calls (history tr) s.entering s.leaving

/-- An access of the producer. -/
theorem Linear.produce (lin : Linear calls tr s) (hphase : s.phase = .ready)
    (h : enqueue s.shared s.producer = some (q, l, es)) (hsound : l ≠ .faulted) :
    Linear calls (tr ++ es) { s with shared := q, producer := l } := by
  unfold Linear State.entering State.leaving at lin ⊢
  simp only [hphase] at lin ⊢
  rw [history_append]
  rcases enqueue_answer h hsound with ⟨hes, hl⟩ | ⟨v, hes, hv, hl⟩
  · rw [hes, List.append_nil, hl]
    exact lin
  · rw [hv] at lin
    rw [hes, hl]
    exact lin.accept rfl

/-- An access of the consumer. -/
theorem Linear.consume (lin : Linear calls tr s) (hphase : s.phase = .ready)
    (inv : Inv g s.shared s.producer s.consumer) (built : Built preAlloc g tr s)
    (h : tryDequeue s.shared s.consumer = some (q, m, es)) (hsound : m ≠ .faulted)
    (hfifo : dequeued (tr ++ es) <+: enqueued (tr ++ es)) :
    Linear calls (tr ++ es) { s with shared := q, consumer := m } := by
  unfold Built at built
  rw [hphase] at built
  obtain ⟨htaken, henq, hdeq⟩ := built
  unfold Linear State.entering State.leaving at lin ⊢
  simp only [hphase] at lin ⊢
  rw [history_append]
  rcases inv.tryDequeue_answer h hsound with ⟨rfl, hm⟩ | ⟨hm, hm', hanswer⟩
  · rw [hm]
    exact (List.append_nil (history tr)).symm ▸ lin
  · rw [hm] at lin
    rw [hm']
    rcases hanswer with ⟨v, rfl⟩ | ⟨rfl, hempty⟩
    · refine lin.deliver ?_
      rw [takes_history, puts_history]
      simpa [enqueued, dequeued] using hfifo
    · refine lin.empty ?_
      have hlen := inv.delivered_length
      rw [takes_history, puts_history, henq, hdeq, List.length_drop, List.length_drop]
      omega

/-- The constructor's accesses are in no call of the threads, and leave them outside of one. -/
theorem Built.construct (built : Built preAlloc g tr s)
    (h : SpscQueue.construct preAlloc dummy s = some s') :
    s'.entering = s.entering ∧ s'.leaving = s.leaving := by
  unfold SpscQueue.construct at h
  unfold Built at built
  split at h
  · rename_i left hphase
    rw [hphase] at built
    unfold State.entering State.leaving
    rw [hphase]
    split at h
    · cases h; exact ⟨rfl, rfl⟩
    · cases h; exact ⟨rfl, rfl⟩
    · obtain ⟨r, -, rfl⟩ := Option.map_eq_some_iff.mp h
      simp [State.produced, hphase]
  · rename_i left hphase
    rw [hphase] at built
    unfold State.entering State.leaving
    rw [hphase]
    split at h
    · cases h; exact ⟨rfl, rfl⟩
    · -- both threads are outside of a call when they get the queue
      rename_i hidle
      cases h
      simp [hidle, built.2.1, Producer.entering, Consumer.leaving]
    · obtain ⟨r, -, rfl⟩ := Option.map_eq_some_iff.mp h
      simp [State.consumed, hphase]
  · exact absurd h (by simp)

end

/-- **Linearizability.** For every `pre_alloc` and every interleaving of the accesses. -/
theorem calls_linear_of_run {preAlloc : Nat} {dummy : α} {tr : List (Event α ⊕ Op α)} {s : State α}
    (run : ((machine preAlloc dummy).recording calling).Run tr s) :
    Linear (Machine.records tr) (Machine.events tr) s := by
  refine run.invariant (I := fun tr s => Linear (Machine.records tr) (Machine.events tr) s)
    ?_ ?_
  · show Buffer.Linearizable _ [] [] none false
    exact Buffer.Linearizable.nil
  intro tr es s s' a run lin allowed step
  obtain ⟨g, inv, built⟩ := Inv.of_run run.forget
  obtain ⟨g', inv', built'⟩ := Inv.of_run (run.snoc allowed step).forget
  obtain ⟨hnext, hrecords⟩ := Machine.next_recording step
  have hfifo := built'.fifo
  rw [Machine.events_append] at hfifo
  rw [Machine.events_append, Machine.records_append, hrecords]
  generalize Machine.events es = es' at hnext hfifo
  simp only [machine, next] at hnext
  split at hnext
  · -- a call of `enqueue`
    rename_i v hphase
    split at hnext <;> cases hnext
    rename_i hidle
    unfold Linear State.entering State.leaving at lin ⊢
    simp only [hphase, hidle] at lin ⊢
    exact (List.append_nil (Machine.events tr)).symm ▸ lin.callEnqueue v
  · -- an access of the producer
    rename_i hphase
    obtain ⟨⟨q, l, es⟩, hacc, heq⟩ := Option.map_eq_some_iff.mp hnext
    cases heq
    exact (List.append_nil (Machine.records tr)).symm ▸
      lin.produce hphase hacc inv'.not_faulted.1
  · -- a call of `try_dequeue`
    rename_i hphase
    split at hnext <;> cases hnext
    rename_i hidle
    unfold Linear State.entering State.leaving at lin ⊢
    simp only [hphase, hidle] at lin ⊢
    exact (List.append_nil (Machine.events tr)).symm ▸ lin.callDequeue
  · -- an access of the consumer
    rename_i hphase
    obtain ⟨⟨q, m, es⟩, hacc, heq⟩ := Option.map_eq_some_iff.mp hnext
    cases heq
    exact (List.append_nil (Machine.records tr)).symm ▸
      lin.consume hphase inv built hacc inv'.not_faulted.2 hfifo
  · -- an access of the constructor
    obtain ⟨s'', hconstruct, heq⟩ := Option.map_eq_some_iff.mp hnext
    cases heq
    obtain ⟨hentering, hleaving⟩ := built.construct hconstruct
    unfold Linear at lin ⊢
    rw [hentering, hleaving]
    exact (List.append_nil (Machine.events tr)).symm ▸
      (List.append_nil (Machine.records tr)).symm ▸ lin
  · exact absurd hnext (by simp)

/-- The consumer finds nothing while a value is being written into a recycled node, and then finds
    that value. -/
theorem calls_linear_of_run_one : ∃ tr s,
    ((machine (α := Nat) 1 0).recording calling).Run tr s ∧
    Machine.records tr = [.enqueue 7, .dequeue, .dequeue] ∧
    history (Machine.events tr) = [(.dequeue, .taken none), (.enqueue 7, .accepted true),
      (.dequeue, .taken (some 7))] ∧
    Linear (Machine.records tr) (Machine.events tr) s := by
  obtain ⟨tr, s, run, h⟩ := Machine.exists_run (M := (machine (α := Nat) 1 0).recording calling)
    (P := fun tr _ => Machine.records tr = [.enqueue 7, .dequeue, .dequeue] ∧
      history (Machine.events tr) = [(.dequeue, .taken none), (.enqueue 7, .accepted true),
        (.dequeue, .taken (some 7))])
    (constructOne ++ Action.enqueue 7 :: List.replicate 5 Action.produce ++ Action.tryDequeue ::
      Action.consume :: List.replicate 3 Action.produce ++ Action.tryDequeue ::
      List.replicate 5 Action.consume)
    (by decide +kernel)
  exact ⟨tr, s, run, h.1, h.2, calls_linear_of_run run⟩

end HopeThreading.SpscQueue
