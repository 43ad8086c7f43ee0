import HopeThreading.Queue.MpscSafety
import HopeThreading.Transition.Buffer
import HopeThreading.Transition.History

namespace HopeThreading.MpscQueue

open Transition

open Buffer (Op Answer)

/-!
# `mpsc_queue` — the calls that succeed are linearizable

A value is enqueued with the exchange of `m_head`, and dequeued when `m_tail` moves to its node.
In that order the calls of `enqueue` and the successful calls of `try_dequeue` are those of a FIFO,
each at one access between its start and its end (`exchanges_linear_of_run`).  So the values come
out in an order that the producers can observe: one that was enqueued before another call began
comes out before the value of that call.

A `try_dequeue` that returns `false` is not among them.  It has read a null link, and behind the
link there may be values whose calls have returned (`Inv.refused`).
-/

variable {ι α : Type*}

/-- The operation that takes effect with an event; the consumer is the thread `none`. -/
def operation : Event ι α → Option ((Option ι × Op α) × Answer α)
  | .exchanged t _ v => some ((some t, .enqueue v), .accepted true)
  | .advanced v => some ((none, .dequeue), .taken (some v))
  | .refused => some ((none, .dequeue), .taken none)
  | _ => none

/-- The operations in the order in which they take effect. -/
def effects (tr : List (Event ι α)) : List ((Option ι × Op α) × Answer α) :=
  tr.filterMap operation

/-- Those that succeed. -/
def successes (tr : List (Event ι α)) : List (Op α × Answer α) :=
  (effects tr).filterMap fun
    | (_, .taken none) => none
    | ((_, op), answer) => some (op, answer)

/-- The call that an action starts. -/
def calling (_ : State ι α) : Action ι α → List (Option ι × Op α)
  | .enqueue t v => [(some t, .enqueue v)]
  | .tryDequeue => [(none, .dequeue)]
  | _ => []

/-- The call of a producer that has not taken effect. -/
def Producer.entering : Producer α → Option (Op α)
  | .newNode v | .loadBufferHead v | .compareTail v _ | .readNext v _
  | .exchangeBufferHead v _ _ | .writeValue v _ | .clearNext v _ | .exchangeHead v _ =>
    some (.enqueue v)
  | .idle | .storeLink _ _ _ | .faulted => none

/-- The call of the consumer that has not taken effect. -/
def Consumer.leaving : Consumer α → Option (Op α)
  | .readNext | .moveValue _ | .advanceTail _ _ => some .dequeue
  | _ => none

/-- The calls that have started and not taken effect. -/
def State.entering (s : State ι α) : Option ι → Option (Op α)
  | some t => (s.producers t).entering
  | none => s.consumer.leaving

/-- The answer of a call that has taken effect and not returned. -/
def Producer.pending : Producer α → List (Answer α)
  | .storeLink _ _ _ => [.accepted true]
  | _ => []

/-- The answer that the consumer has still to return. -/
def Consumer.pending : Consumer α → List (Answer α)
  | .clearValue _ v | .deleteTail _ v => [.taken (some v)]
  | _ => []

/-- The answer that a call has still to return. -/
def State.pending (s : State ι α) : Option ι → List (Answer α)
  | some t => (s.producers t).pending
  | none => s.consumer.pending

/-- The return of a call. -/
def Event.returned : Event ι α → Option (Option ι × Answer α)
  | .enqueued t => some (some t, .accepted true)
  | .dequeued v => some (none, .taken (some v))
  | .refused => some (none, .taken none)
  | _ => none

/-- What the calls have returned. -/
def returns (tr : List (Event ι α)) : List (Option ι × Answer α) := tr.filterMap Event.returned

/-- What the callers rely on. -/
structure Linear [DecidableEq ι] (calls : List (Option ι × Op α)) (tr : List (Event ι α))
    (s : State ι α) : Prop where
  /-- The calls of each thread take effect in their order, each between its start … -/
  order : ProgramOrder Prod.fst calls (effects tr) fun u => (s.entering u).map (u, ·)
  /-- … and its end, and they return what they have done. -/
  answers : ∀ u, (SeqObject.part Prod.fst u (effects tr)).map Prod.snd =
    ((returns tr).filter (·.1 = u)).map Prod.snd ++ s.pending u
  /-- The successful ones are those of a FIFO. -/
  legal : (Buffer.object fun _ => true).Legal (successes tr)

/-! ### The lists -/

section

variable (tr es : List (Event ι α))

/-- What takes effect in a run is what does in its pieces. -/
theorem effects_append : effects (tr ++ es) = effects tr ++ effects es :=
  List.filterMap_append

/-- What returns in a run is what does in its pieces. -/
theorem returns_append : returns (tr ++ es) = returns tr ++ returns es :=
  List.filterMap_append

/-- The successful calls of a run are those of its pieces. -/
theorem successes_append : successes (tr ++ es) = successes tr ++ successes es := by
  unfold successes
  rw [effects_append, List.filterMap_append]

/-- The successful calls that put values in are the exchanges. -/
theorem puts_successes : Buffer.puts (successes tr) = (history tr).accepted := by
  induction tr using List.reverseRecOn with
  | nil => rfl
  | append_singleton tr e ih =>
    rw [successes_append, Buffer.puts_append, ih, history_append]
    cases e <;> first | rfl | exact List.append_nil _

/-- The successful calls that take values out are the moves of the tail. -/
theorem takes_successes : Buffer.takes (successes tr) = (history tr).taken := by
  induction tr using List.reverseRecOn with
  | nil => rfl
  | append_singleton tr e ih =>
    rw [successes_append, Buffer.takes_append, ih, history_append]
    cases e <;> first | rfl | exact List.append_nil _

end

/-! ### One access -/

/-- What an access of the thread `u` does to its call, when the operations `p` take effect: they are
    not under way any more, and their answers are returned or pending. -/
structure Answered (u : Option ι) (call call' : Option (Op α)) (pending pending' : List (Answer α))
    (p : List (Op α × Answer α)) (es : List (Event ι α)) : Prop where
  single : p.length ≤ 1
  effects : effects es = p.map fun x => ((u, x.1), x.2)
  call : call.toList = p.map Prod.fst ++ call'.toList
  answers : pending ++ p.map Prod.snd = (returns es).map Prod.snd ++ pending'
  returns : ∀ x ∈ returns es, x.1 = u

/-- An access of `enqueue`. -/
theorem enqueue_answered {q : Shared α} {t : ι} {l : Producer α}
    {r : Shared α × Producer α × List (Event ι α)} (h : enqueue q t l = some r)
    (hnofault : .faulted ∉ r.2.2) :
    ∃ p, Answered (some t) l.entering r.2.1.entering l.pending r.2.1.pending p r.2.2 := by
  cases l <;> simp only [enqueue] at h
  case idle => exact absurd h (by simp)
  case newNode v =>
    cases h
    exact ⟨[], Nat.zero_le _, rfl, rfl, rfl, by simp [returns, Event.returned]⟩
  case loadBufferHead v => cases h; exact ⟨[], Nat.zero_le _, rfl, rfl, rfl, by simp [returns]⟩
  case compareTail v n =>
    split at h <;> cases h <;> exact ⟨[], Nat.zero_le _, rfl, rfl, rfl, by simp [returns]⟩
  case readNext v n =>
    split at h
    · cases h
      exact absurd List.mem_cons_self hnofault
    · split at h <;> cases h
      · exact absurd List.mem_cons_self hnofault
      · exact ⟨[], Nat.zero_le _, rfl, rfl, rfl, by simp [returns]⟩
  case exchangeBufferHead v p n =>
    split at h <;> cases h <;>
      exact ⟨[], Nat.zero_le _, rfl, rfl, rfl, by simp [returns, Event.returned]⟩
  case writeValue v p =>
    split at h <;> cases h
    · exact absurd List.mem_cons_self hnofault
    · exact ⟨[], Nat.zero_le _, rfl, rfl, rfl, by simp [returns]⟩
  case clearNext v p =>
    split at h <;> cases h
    · exact absurd List.mem_cons_self hnofault
    · exact ⟨[], Nat.zero_le _, rfl, rfl, rfl, by simp [returns]⟩
  -- the exchange of `m_head` is where the call takes effect
  case exchangeHead v p =>
    cases h
    exact ⟨[(.enqueue v, .accepted true)], le_rfl, rfl, rfl, rfl, by simp [returns, Event.returned]⟩
  case storeLink v old p =>
    split at h <;> cases h
    · exact absurd List.mem_cons_self hnofault
    · exact ⟨[], Nat.zero_le _, rfl, rfl, rfl, by simp [returns, Event.returned]⟩
  case faulted => exact absurd h (by simp)

/-- An access of `try_dequeue`. -/
theorem tryDequeue_answered {policy : AllocPolicy} {moved : α → α} {blank : α} {q : Shared α}
    {l : Consumer α} {r : Shared α × Consumer α × List (Event ι α)}
    (h : tryDequeue policy moved blank q l = some r) (hnofault : .faulted ∉ r.2.2) :
    ∃ p, Answered none l.leaving r.2.1.leaving l.pending r.2.1.pending p r.2.2 := by
  cases l <;> simp only [tryDequeue] at h
  case idle => exact absurd h (by simp)
  case readNext =>
    split at h <;> cases h
    · exact absurd List.mem_cons_self hnofault
    -- a call that finds the null link takes effect and returns with this access
    · exact ⟨[(.dequeue, .taken none)], le_rfl, rfl, rfl, rfl, by simp [returns, Event.returned]⟩
    · exact ⟨[], Nat.zero_le _, rfl, rfl, rfl, by simp [returns]⟩
  case moveValue p =>
    split at h <;> cases h
    · exact absurd List.mem_cons_self hnofault
    · exact ⟨[], Nat.zero_le _, rfl, rfl, rfl, by simp [returns]⟩
  case advanceTail p v =>
    cases h
    exact ⟨[(.dequeue, .taken (some v))], le_rfl, rfl, rfl, rfl, by simp [returns, Event.returned]⟩
  case clearValue old v =>
    split at h
    · cases h
      exact absurd List.mem_cons_self hnofault
    · split at h <;> cases h <;>
        exact ⟨[], Nat.zero_le _, rfl, rfl, rfl, by simp [returns, Event.returned]⟩
  case deleteTail old v =>
    split at h <;> cases h
    · exact absurd List.mem_cons_self hnofault
    · exact ⟨[], Nat.zero_le _, rfl, rfl, rfl, by simp [returns, Event.returned]⟩
  case faulted => exact absurd h (by simp)

/-! ### Every run -/

section

variable [DecidableEq ι] {calls : List (Option ι × Op α)} {tr es : List (Event ι α)}
variable {s s' : State ι α} {u : Option ι}

omit [DecidableEq ι] in
/-- The consumer does not change the calls of the producers. -/
theorem consumed_others {r : Shared α × Consumer α × List (Event ι α)} {w : Option ι}
    (hw : w ≠ none) : (s.consumed r).1.entering w = s.entering w ∧
      (s.consumed r).1.pending w = s.pending w := by
  cases w with
  | none => exact absurd rfl hw
  | some t => exact ⟨rfl, rfl⟩

/-- A producer does not change the calls of the others. -/
theorem produced_others {t : ι} {r : Shared α × Producer α × List (Event ι α)} {w : Option ι}
    (hw : w ≠ some t) : (s.produced t r).1.entering w = s.entering w ∧
      (s.produced t r).1.pending w = s.pending w := by
  cases w with
  | none => exact ⟨rfl, rfl⟩
  | some t' =>
    have hother : (s.produced t r).1.producers t' = s.producers t' :=
      Function.update_of_ne (fun h => hw (congrArg some h)) _ _
    exact ⟨congrArg Producer.entering hother, congrArg Producer.pending hother⟩

/-- A thread starts a call. -/
theorem Linear.call (lin : Linear calls tr s) {op : Op α} (hnone : s.entering u = none)
    (hop : s'.entering u = some op) (hothers : ∀ w, w ≠ u → s'.entering w = s.entering w)
    (hpending : s'.pending = s.pending) : Linear (calls ++ [(u, op)]) tr s' where
  order := lin.order.start hnone hop hothers
  answers := by
    intro w
    rw [hpending]
    exact lin.answers w
  legal := lin.legal

omit [DecidableEq ι] in
/-- One more operation that succeeds is one of the FIFO. -/
theorem legal_append (hlegal : (Buffer.object fun _ => true).Legal (successes tr))
    (hsingle : (effects es).length ≤ 1)
    (hfifo : (history (tr ++ es)).taken <+: (history (tr ++ es)).accepted) :
    (Buffer.object fun _ => true).Legal (successes (tr ++ es)) := by
  rw [← takes_successes, ← puts_successes, successes_append, Buffer.takes_append,
    Buffer.puts_append] at hfifo
  rw [successes_append]
  cases heffects : effects es with
  | nil =>
    have hnone : successes es = [] := by rw [successes, heffects]; rfl
    rw [hnone, List.append_nil]
    exact hlegal
  | cons x rest =>
    obtain rfl : rest = [] := by
      rw [heffects] at hsingle
      exact List.eq_nil_of_length_eq_zero (Nat.le_zero.mp (Nat.le_of_succ_le_succ hsingle))
    have hmem : x ∈ effects es := by rw [heffects]; exact List.mem_cons_self
    obtain ⟨e, -, he⟩ := List.mem_filterMap.mp hmem
    cases e with
    | exchanged t q v =>
      cases he
      have hone : successes es = [(.enqueue v, .accepted true)] := by
        rw [successes, heffects]
        rfl
      rw [hone]
      exact Buffer.Legal.accept hlegal v rfl
    | advanced v =>
      cases he
      have hone : successes es = [(.dequeue, .taken (some v))] := by
        rw [successes, heffects]
        rfl
      rw [hone] at hfifo ⊢
      refine Buffer.Legal.deliver hlegal ?_
      exact (List.append_nil (Buffer.puts (successes tr))) ▸ hfifo
    | refused =>
      cases he
      have hnone : successes es = [] := by rw [successes, heffects]; rfl
      rw [hnone, List.append_nil]
      exact hlegal
    | _ => exact absurd he (by simp [operation])

/-- A thread does an access. -/
theorem Linear.access (lin : Linear calls tr s) {p : List (Op α × Answer α)}
    (h : Answered u (s.entering u) (s'.entering u) (s.pending u) (s'.pending u) p es)
    (hothers : ∀ w, w ≠ u → s'.entering w = s.entering w ∧ s'.pending w = s.pending w)
    (hfifo : (history (tr ++ es)).taken <+: (history (tr ++ es)).accepted) :
    Linear calls (tr ++ es) s' := by
  refine ⟨?_, fun w => ?_, legal_append lin.legal ?_ hfifo⟩
  · rw [effects_append, h.effects]
    exact lin.order.performed h.call fun w hw => (hothers w hw).1
  · rw [effects_append, h.effects, returns_append, List.filter_append, List.map_append]
    refine answers_performed (fun w => ((returns es).filter (·.1 = w)).map Prod.snd) s'.pending
      lin.answers ?_ (fun w hw => ⟨?_, (hothers w hw).2⟩) w
    · rw [List.filter_eq_self.mpr fun x hx => decide_eq_true (h.returns x hx)]
      exact h.answers
    · rw [List.filter_eq_nil_iff.mpr fun x hx => by rw [h.returns x hx]; simp [Ne.symm hw]]
      rfl
  · rw [h.effects, List.length_map]
    exact h.single

/-- **Step lemma.** -/
theorem Linear.step (lin : Linear calls tr s) {policy : AllocPolicy} {moved : α → α} {blank : α}
    {a : Action ι α} (hnext : next policy moved blank s a = some (s', es))
    (hnofault : .faulted ∉ es)
    (hfifo : (history (tr ++ es)).taken <+: (history (tr ++ es)).accepted) :
    Linear (calls ++ calling s a) (tr ++ es) s' := by
  rcases next_cases hnext with ⟨t, v, rfl, hidle, heq⟩ | ⟨t, r, rfl, hr, heq⟩ | ⟨rfl, hidle, heq⟩ |
    ⟨r, rfl, hr, heq⟩
  · -- `enqueue` is called
    cases heq
    show Linear (calls ++ [(some t, .enqueue v)]) (tr ++ []) _
    rw [List.append_nil]
    refine lin.call (u := some t) ?_ ?_ ?_ ?_
    · show (s.producers t).entering = none
      rw [hidle]
      rfl
    · show (Function.update s.producers t (.start policy v) t).entering = _
      rw [Function.update_self]
      cases policy <;> rfl
    · exact fun w hw => (produced_others hw).1
    · funext w
      by_cases hw : w = some t
      · rw [hw]
        show (Function.update s.producers t (.start policy v) t).pending = (s.producers t).pending
        rw [Function.update_self, hidle]
        cases policy <;> rfl
      · exact (produced_others hw).2
  · -- an access of a producer: what it answers has taken effect at the exchange
    cases heq
    obtain ⟨p, hp⟩ := enqueue_answered hr hnofault
    show Linear (calls ++ []) _ _
    rw [List.append_nil]
    refine lin.access (u := some t) (p := p) ?_ (fun w hw => produced_others hw) hfifo
    have hself : (s.produced t r).1.producers t = r.2.1 := Function.update_self _ _ _
    show Answered (some t) (s.producers t).entering ((s.produced t r).1.producers t).entering
      (s.producers t).pending ((s.produced t r).1.producers t).pending p r.2.2
    rw [hself]
    exact hp
  · -- `try_dequeue` is called
    cases heq
    show Linear (calls ++ [(none, .dequeue)]) (tr ++ []) _
    rw [List.append_nil]
    refine lin.call (u := none) ?_ rfl (fun w hw => (consumed_others hw).1) ?_
    · show s.consumer.leaving = none
      rw [hidle]
      rfl
    · funext w
      cases w with
      | none =>
        show Consumer.pending .readNext = s.consumer.pending
        rw [hidle]
        rfl
      | some t => rfl
  · -- an access of the consumer
    cases heq
    obtain ⟨p, hp⟩ := tryDequeue_answered hr hnofault
    show Linear (calls ++ []) _ _
    rw [List.append_nil]
    exact lin.access (u := none) hp (fun w hw => consumed_others hw) hfifo

/-- **Linearizability of the successful calls**, with both policies and any number of producers;
    with the buffered one in every run without a stale exchange on `m_buffer_head`. -/
theorem exchanges_linear_of_run {policy : AllocPolicy} {moved : α → α} {blank : α}
    {ok : State ι α → Action ι α → Prop} (hok : policy = .buffered → ∀ s a, ok s a → NotStale s a)
    {tr : List (Event ι α ⊕ (Option ι × Op α))} {s : State ι α}
    (run : ((machine policy moved blank).recording calling).RunIf ok tr s) :
    Linear (Machine.records tr) (Machine.events tr) s := by
  refine run.invariant (I := fun tr s => Linear (Machine.records tr) (Machine.events tr) s) ?_ ?_
  · exact ⟨fun u => by cases u <;> rfl, fun u => by cases u <;> rfl, SeqObject.legal_nil⟩
  · intro tr es s s' a run lin allowed step
    obtain ⟨inv, hnofault⟩ := Inv.of_run hok (run.snoc allowed step).forget
    obtain ⟨hnext, hrecords⟩ := Machine.next_recording step
    rw [Machine.events_append] at inv hnofault
    rw [Machine.events_append, Machine.records_append, hrecords]
    exact lin.step hnext (fun hmem => hnofault (List.mem_append_right _ hmem)) inv.taken

end

/-- The second value is linked first, and a `try_dequeue` returns `false` although its call has
    returned; the values come out in the order of the exchanges. -/
theorem exchanges_linear_of_run_two : ∃ tr s,
    ((machine (ι := Bool) (α := Nat) .newOnly id 0).recording calling).Run tr s ∧
    effects (Machine.events tr) = [((some true, .enqueue 5), .accepted true),
      ((some false, .enqueue 6), .accepted true), ((none, .dequeue), .taken none),
      ((none, .dequeue), .taken (some 5))] ∧
    Linear (Machine.records tr) (Machine.events tr) s := by
  obtain ⟨tr, s, run, heffects⟩ := Machine.exists_run
    (M := (machine (ι := Bool) (α := Nat) .newOnly id 0).recording calling)
    (P := fun tr _ => effects (Machine.events tr) = [((some true, .enqueue 5), .accepted true),
      ((some false, .enqueue 6), .accepted true), ((none, .dequeue), .taken none),
      ((none, .dequeue), .taken (some 5))])
    ([Action.enqueue true 5, .produce true, .produce true] ++
      Action.enqueue false 6 :: List.replicate 3 (Action.produce false) ++
      [Action.tryDequeue, .consume, .produce true] ++
      Action.tryDequeue :: List.replicate 5 Action.consume) (by decide +kernel)
  exact ⟨tr, s, run, heffects, exchanges_linear_of_run (fun hb => absurd hb (by simp)) run⟩

end HopeThreading.MpscQueue
