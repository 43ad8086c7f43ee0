import HopeThreading.Queue.SutterSafety
import HopeThreading.Transition.Buffer
import HopeThreading.Transition.History

namespace HopeThreading.SutterQueue

open Transition

open Buffer (Op Answer)

/-!
# `sutter_queue` — a linearizable FIFO

A value is in the queue from the store to `m_last` on, and out of it with the store to
`m_divider`.  A `dequeue` that returns `false` has compared its copy of `m_divider` with `m_last`;
only the consumer moves the divider, so at that access the queue was empty.  In the order of these
accesses the calls are those of a FIFO, the refusals included (`answers_linear_of_run`).
-/

variable {α : Type*}

/-- The operation that takes effect with an event. -/
def operation : Event α → Option (Op α × Answer α)
  | .enqueued v => some (.enqueue v, .accepted true)
  | .dequeued v => some (.dequeue, .taken (some v))
  | .refused => some (.dequeue, .taken none)
  | .deleted _ => none

/-- The operations in the order in which they take effect. -/
def history (tr : List (Event α)) : List (Op α × Answer α) := tr.filterMap operation

/-- The call that an action starts. -/
def calling (_ : State α) : Action α → List (Op α)
  | .enqueue v => [.enqueue v]
  | .dequeue => [.dequeue]
  | _ => []

/-- The value of an `enqueue` that has not taken effect. -/
def Producer.entering : Producer α → Option α
  | .loadLast v | .newNode v _ | .storeLink v _ _ | .readNext v _ | .storeLast v _ => some v
  | _ => none

/-- A `dequeue` has not taken effect. -/
def Consumer.leaving : Consumer α → Bool
  | .idle => false
  | _ => true

section

variable (tr es : List (Event α))

@[simp] theorem history_append : history (tr ++ es) = history tr ++ history es :=
  List.filterMap_append

@[simp] theorem puts_history : Buffer.puts (history tr) = enqueued tr := by
  unfold Buffer.puts history enqueued
  rw [List.filterMap_filterMap]
  congr 1
  ext e
  cases e <;> rfl

@[simp] theorem takes_history : Buffer.takes (history tr) = dequeued tr := by
  unfold Buffer.takes history dequeued
  rw [List.filterMap_filterMap]
  congr 1
  ext e
  cases e <;> rfl

end

/-! ### What an access answers -/

section

variable {moved : α → α} {g : Ghost α} {q q' : Shared α} {l l' : Producer α} {m m' : Consumer α}
  {es : List (Event α)}

/-- An access of `enqueue` lets its value in, or nothing takes effect. -/
theorem Inv.enqueue_answer (inv : Inv g q l m) (h : enqueue q l = some (q', l', es)) :
    (history es = [] ∧ l'.entering = l.entering) ∨
      ∃ v, history es = [(.enqueue v, .accepted true)] ∧ l.entering = some v ∧
        l'.entering = none := by
  have hproducer := inv.producer
  cases l with
  | idle => exact absurd h (by simp [enqueue])
  | faulted => exact hproducer.elim
  | loadLast v => cases h; exact .inl ⟨rfl, rfl⟩
  | newNode v last => cases h; exact .inl ⟨rfl, rfl⟩
  | storeLink v last n =>
    obtain ⟨x, p, hx, rfl, -⟩ := inv.storeLink rfl
    simp only [enqueue, hx] at h
    cases h
    exact .inl ⟨rfl, rfl⟩
  | readNext v last =>
    obtain ⟨-, -, hnext, rfl⟩ := hproducer
    simp only [enqueue, Option.bind_some, hnext] at h
    cases h
    exact .inl ⟨rfl, rfl⟩
  | storeLast v tmpLast => cases h; exact .inr ⟨v, rfl, rfl, rfl⟩
  | loadDivider => cases h; exact .inl ⟨rfl, rfl⟩
  | compareFirst div =>
    simp only [enqueue] at h
    split at h <;> cases h <;> exact .inl ⟨rfl, rfl⟩
  | readFirst =>
    simp only [enqueue, (inv.readFirst rfl).1] at h
    cases h
    exact .inl ⟨rfl, rfl⟩
  | deleteTemp temp =>
    simp only [enqueue, (inv.deleteTemp rfl).1] at h
    cases h
    exact .inl ⟨rfl, rfl⟩

/-- An access of `dequeue` takes a value out, finds none, or nothing takes effect. -/
theorem Inv.dequeue_answer (inv : Inv g q l m) (h : dequeue moved q m = some (q', m', es))
    (hsound : m' ≠ .faulted) :
    (es = [] ∧ m'.leaving = m.leaving) ∨
      m.leaving = true ∧ m'.leaving = false ∧
        ((∃ v, es = [.dequeued v]) ∨ es = [.refused] ∧ g.taken = g.accepted.length) := by
  have hconsumer := inv.consumer
  cases m with
  | idle => exact absurd h (by simp [dequeue])
  | faulted => exact hconsumer.elim
  | loadDivider => cases h; exact .inl ⟨rfl, rfl⟩
  | loadLast divNode =>
    simp only [dequeue] at h
    split at h
    · cases h; exact .inl ⟨rfl, rfl⟩
    · -- the copy of the divider is still right
      rename_i hlast
      cases h
      have hdiv : divNode = some g.taken := hconsumer
      rw [not_not, hdiv, inv.last] at hlast
      exact .inr ⟨rfl, rfl, .inr ⟨rfl, Option.some.inj hlast⟩⟩
  | readNext divNode =>
    simp only [dequeue] at h
    split at h <;> cases h
    · exact absurd rfl hsound
    · exact .inl ⟨rfl, rfl⟩
  | readValue divNode p =>
    simp only [dequeue] at h
    split at h <;> cases h
    · exact .inl ⟨rfl, rfl⟩
    · exact absurd rfl hsound
  | readNextAgain divNode v =>
    simp only [dequeue] at h
    split at h <;> cases h
    · exact absurd rfl hsound
    · exact .inl ⟨rfl, rfl⟩
  | storeDivider v divNode => cases h; exact .inr ⟨rfl, rfl, .inl ⟨v, rfl⟩⟩

/-- The destructor answers nothing. -/
theorem history_destruct {d d' : Destructor} (h : destruct q d = some (q', d', es)) :
    history es = [] := by
  cases d with
  | alive => exact absurd h (by simp [destruct])
  | done => exact absurd h (by simp [destruct])
  | faulted => exact absurd h (by simp [destruct])
  | test => simp only [destruct] at h; split at h <;> cases h <;> rfl
  | readFirst => simp only [destruct] at h; split at h <;> cases h <;> rfl
  | deleteTemp temp => simp only [destruct] at h; split at h <;> cases h <;> rfl

end

/-! ### Every run -/

variable {moved : α → α} {dummy : α} {tr : List (Event α)} {s s' : State α}

/-- **Step inversion**, with the call that starts. -/
theorem next_calling {a : Action α} {es : List (Event α)}
    (h : next moved s a = some (s', es)) :
    (∃ v, calling s a = [.enqueue v] ∧ es = [] ∧ s.producer = .idle ∧
      s' = { s with producer := .loadLast v }) ∨
    (calling s a = [.dequeue] ∧ es = [] ∧ s.consumer = .idle ∧
      s' = { s with consumer := .loadDivider }) ∨
    (calling s a = [] ∧ ((∃ q l, enqueue s.shared s.producer = some (q, l, es) ∧
        s' = { s with shared := q, producer := l }) ∨
      (∃ q m, dequeue moved s.shared s.consumer = some (q, m, es) ∧
        s' = { s with shared := q, consumer := m }) ∨
      (history es = [] ∧ s'.producer = s.producer ∧ s'.consumer = s.consumer))) := by
  unfold next at h
  split at h
  case h_1 =>
    split at h
    · rename_i hidle; cases h; exact .inl ⟨_, rfl, rfl, hidle, rfl⟩
    · exact absurd h (by simp)
  case h_2 =>
    -- an access of the producer
    obtain ⟨⟨q, l, es'⟩, hacc, heq⟩ := Option.map_eq_some_iff.mp h
    cases heq
    exact .inr (.inr ⟨rfl, .inl ⟨q, l, hacc, rfl⟩⟩)
  case h_3 =>
    split at h
    · rename_i hidle; cases h; exact .inr (.inl ⟨rfl, rfl, hidle, rfl⟩)
    · exact absurd h (by simp)
  case h_4 =>
    -- an access of the consumer
    obtain ⟨⟨q, m, es'⟩, hacc, heq⟩ := Option.map_eq_some_iff.mp h
    cases heq
    exact .inr (.inr ⟨rfl, .inr (.inl ⟨q, m, hacc, rfl⟩)⟩)
  case h_5 =>
    split at h
    · cases h; exact .inr (.inr ⟨rfl, .inr (.inr ⟨rfl, rfl, rfl⟩)⟩)
    · exact absurd h (by simp)
  case h_6 => exact absurd h (by simp)
  case h_7 =>
    -- the destructor calls nothing
    obtain ⟨⟨q, d, es'⟩, hacc, heq⟩ := Option.map_eq_some_iff.mp h
    cases heq
    exact .inr (.inr ⟨rfl, .inr (.inr ⟨history_destruct hacc, rfl, rfl⟩)⟩)
  case h_8 => exact absurd h (by simp)

/-- In every run, what is dequeued is a prefix of what was enqueued. -/
theorem fifo_of_run (run : (machine moved dummy).Run tr s) : dequeued tr <+: enqueued tr := by
  rcases inv_of_run run with ⟨g, hg⟩ | ⟨live, hend⟩
  · exact hg.fifo
  · exact hend.fifo

/-- The consumer never reads a node that is gone. -/
theorem consumer_sound (run : (machine moved dummy).Run tr s) : s.consumer ≠ .faulted := by
  rcases inv_of_run run with ⟨g, hg⟩ | ⟨live, hend⟩
  · intro hfault
    have hconsumer := hg.inv.consumer
    rw [hfault] at hconsumer
    exact hconsumer
  · rw [hend.consumer]
    simp

/-- As long as a thread is in a call, the destructor has not started. -/
theorem running_of_run (run : (machine moved dummy).Run tr s)
    (h : s.producer ≠ .idle ∨ s.consumer ≠ .idle) : ∃ g, Running g tr s := by
  rcases inv_of_run run with hg | ⟨live, hend⟩
  · exact hg
  · rcases h with h | h
    · exact absurd hend.producer h
    · exact absurd hend.consumer h

/-- The queue answers the calls as a FIFO does, with every call at one access between its start and
    its end. -/
def Linear (calls : List (Op α)) (tr : List (Event α)) (s : State α) : Prop :=
  Buffer.Linearizable (fun _ => true) calls (history tr) s.producer.entering s.consumer.leaving

section

variable {calls : List (Op α)} {g : Ghost α} {q : Shared α} {l : Producer α} {m : Consumer α}
  {es : List (Event α)}

/-- An access of `enqueue`. -/
theorem Linear.produce (lin : Linear calls tr s) (inv : Inv g s.shared s.producer s.consumer)
    (h : enqueue s.shared s.producer = some (q, l, es)) :
    Linear calls (tr ++ es) { s with shared := q, producer := l } := by
  unfold Linear at lin ⊢
  rw [history_append]
  rcases inv.enqueue_answer h with ⟨hes, hl⟩ | ⟨v, hes, hv, hl⟩
  · rw [hes, List.append_nil, hl]
    exact lin
  · rw [hv] at lin
    rw [hes, hl]
    exact lin.accept rfl

/-- An access of `dequeue`. -/
theorem Linear.consume (lin : Linear calls tr s) (hg : Running g tr s)
    (h : dequeue moved s.shared s.consumer = some (q, m, es)) (hsound : m ≠ .faulted)
    (hfifo : dequeued (tr ++ es) <+: enqueued (tr ++ es)) :
    Linear calls (tr ++ es) { s with shared := q, consumer := m } := by
  unfold Linear at lin ⊢
  rw [history_append]
  rcases hg.inv.dequeue_answer h hsound with ⟨rfl, hm⟩ | ⟨hm, hm', hanswer⟩
  · rw [hm]
    exact (List.append_nil (history tr)).symm ▸ lin
  · rw [hm] at lin
    rw [hm']
    rcases hanswer with ⟨v, rfl⟩ | ⟨rfl, hempty⟩
    · refine lin.deliver ?_
      rw [takes_history, puts_history]
      simpa [enqueued, dequeued] using hfifo
    · refine lin.empty ?_
      rw [takes_history, puts_history, ← hg.accepted, ← hg.delivered, Ghost.delivered,
        List.length_take]
      omega

end

/-- **Linearizability.** For every interleaving of the accesses of the producer and the consumer. -/
theorem answers_linear_of_run {tr : List (Event α ⊕ Op α)}
    (run : ((machine moved dummy).recording calling).Run tr s) :
    Linear (Machine.records tr) (Machine.events tr) s := by
  refine run.invariant (I := fun tr s => Linear (Machine.records tr) (Machine.events tr) s)
    ?_ ?_
  · show Buffer.Linearizable _ [] [] none false
    exact Buffer.Linearizable.nil
  intro tr es s s' a run lin allowed step
  obtain ⟨hnext, hrecords⟩ := Machine.next_recording step
  have hfifo := fifo_of_run (run.snoc allowed step).forget
  have hsound := consumer_sound (run.snoc allowed step).forget
  rw [Machine.events_append] at hfifo
  rw [Machine.events_append, Machine.records_append, hrecords]
  -- two calls, an access of each side, and the destructor
  rcases next_calling hnext with ⟨v, hcall, hes, hidle, rfl⟩ | ⟨hcall, hes, hidle, rfl⟩ |
    ⟨hcall, ⟨q, l, hacc, rfl⟩ | ⟨q, m, hacc, rfl⟩ | ⟨hes, hproducer, hconsumer⟩⟩
  · rw [hcall, hes, List.append_nil]
    unfold Linear at lin
    rw [hidle] at lin
    exact lin.callEnqueue v
  · rw [hcall, hes, List.append_nil]
    unfold Linear at lin
    rw [hidle] at lin
    exact lin.callDequeue
  · rw [hcall, List.append_nil]
    obtain ⟨g, hg⟩ := running_of_run run.forget (.inl fun hidle => by
      rw [hidle] at hacc
      exact absurd hacc (by simp [enqueue]))
    exact lin.produce hg.inv hacc
  · rw [hcall, List.append_nil]
    obtain ⟨g, hg⟩ := running_of_run run.forget (.inr fun hidle => by
      rw [hidle] at hacc
      exact absurd hacc (by simp [dequeue]))
    exact lin.consume hg hacc hsound hfifo
  · rw [hcall, List.append_nil]
    unfold Linear at lin ⊢
    rw [history_append, hes, List.append_nil, hproducer, hconsumer]
    exact lin

/-- The consumer finds the queue empty while the first value is being put in, and then finds that
    value. -/
theorem answers_linear_of_run_two : ∃ tr s, ((machine id 0).recording calling).Run tr s ∧
    Machine.records tr = [.enqueue 1, .dequeue, .dequeue] ∧
    history (Machine.events tr) = [(.dequeue, .taken none), (.enqueue 1, .accepted true),
      (.dequeue, .taken (some 1))] ∧
    Linear (Machine.records tr) (Machine.events tr) s := by
  obtain ⟨tr, s, run, h⟩ := Machine.exists_run (M := (machine id 0).recording calling)
    (P := fun tr _ => Machine.records tr = [.enqueue 1, .dequeue, .dequeue] ∧
      history (Machine.events tr) = [(.dequeue, .taken none), (.enqueue 1, .accepted true),
        (.dequeue, .taken (some 1))])
    (Action.enqueue 1 :: List.replicate 4 Action.produce ++ Action.dequeue ::
      List.replicate 2 Action.consume ++ Action.produce :: Action.dequeue ::
      List.replicate 6 Action.consume)
    (by decide +kernel)
  exact ⟨tr, s, run, h.1, h.2, answers_linear_of_run run⟩

end HopeThreading.SutterQueue
