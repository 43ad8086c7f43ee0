import HopeThreading.Queue.MpmcBoundedSafety
import HopeThreading.Transition.Buffer
import HopeThreading.Transition.History

namespace HopeThreading.MpmcBoundedQueue

open Transition

open Buffer (Op Answer)

open Transition.Mark (calls history calls_append history_append calls_performed history_performed)

/-!
# `mpmc_bounded_queue` — the calls that succeed are linearizable

A call that returns `true` takes effect when it wins its position.  In that order the successful
calls are those of a FIFO with `size` places (`successes_linear_of_run`): a value goes in only when
there is room, and each value taken out is the oldest one, although the data is written and read
later, by threads that may be overtaken by others.

A call that returns `false` says less, since a claimed cell may not be published or released yet;
`MpmcBoundedRefusal.lean` is about those.
-/

variable {ι α : Type*}

/-- What is written down of a run: a call, and a call that takes effect. -/
abbrev Mark (ι α : Type*) := Transition.Mark (ι × Op α) (Answer α)

/-- What takes effect with the next access of a thread that is at `l`. -/
def performed (c : Capacity) (q : Shared α) : Local α → List (Op α × Answer α)
  | .enqueue v (.loadSequence pos) =>
    if dif (q.cell c pos).sequence pos < 0 then [(.enqueue v, .accepted false)] else []
  | .enqueue v (.exchange pos) =>
    if q.enqueuePos = pos then [(.enqueue v, .accepted true)] else []
  | .dequeue (.loadSequence pos) =>
    if dif (q.cell c pos).sequence (pos + 1#64) < 0 then [(.dequeue, .taken none)] else []
  | .dequeue (.exchange pos) =>
    if q.dequeuePos = pos then [(.dequeue, .taken (some (q.cell c pos).data))] else []
  | _ => []

/-- What is written down of a step. -/
def record (c : Capacity) (s : State ι α) : Action ι α → List (Mark ι α)
  | .tryEnqueue t v => [.called (t, .enqueue v)]
  | .tryDequeue t => [.called (t, .dequeue)]
  | .step t => (performed c s.shared (s.threads t)).map fun x => .performed (t, x.1) x.2

/-- The calls that take effect and succeed. -/
def successes (history : List ((ι × Op α) × Answer α)) : List (Op α × Answer α) :=
  history.filterMap fun
    | ((_, .enqueue v), .accepted true) => some (.enqueue v, .accepted true)
    | ((_, .dequeue), .taken (some v)) => some (.dequeue, .taken (some v))
    | _ => none

/-- The operation that a thread has called and that has not taken effect. -/
def entering : Local α → Option (Op α)
  | .enqueue v .loadPos | .enqueue v (.loadSequence _) | .enqueue v (.exchange _) =>
    some (.enqueue v)
  | .dequeue .loadPos | .dequeue (.loadSequence _) | .dequeue (.exchange _) => some .dequeue
  | _ => none

/-- The answer of a call that has taken effect and not returned; `acc` are the values accepted. -/
def pending (acc : List α) : Local α → List (Answer α)
  | .enqueue _ (.writeData _) | .enqueue _ (.storeSequence _) => [.accepted true]
  | .dequeue (.readData pos) => [.taken acc[pos.toNat]?]
  | .dequeue (.storeSequence _ out) => [.taken (some out)]
  | _ => []

variable [DecidableEq ι]

/-- What the calls of thread `t` have returned. -/
def returns (t : ι) (tr : List (Event ι α)) : List (Answer α) :=
  tr.filterMap fun
    | .enqueueReturned u ok => if u = t then some (.accepted ok) else none
    | .dequeueReturned u _ v => if u = t then some (.taken (some v)) else none
    | .dequeueRefused u => if u = t then some (.taken none) else none
    | _ => none

/-- What the callers rely on. -/
structure Linear (c : Capacity) (marks : List (Mark ι α)) (tr : List (Event ι α))
    (s : State ι α) : Prop where
  /-- The calls of each thread take effect in their order, each between its start … -/
  order : ProgramOrder Prod.fst (calls marks) (history marks) fun t =>
    (entering (s.threads t)).map (t, ·)
  /-- … and its end, and they return what they have done. -/
  answers : ∀ t, (SeqObject.part Prod.fst t (history marks)).map Prod.snd =
    returns t tr ++ pending (accepted tr) (s.threads t)
  /-- The successful ones are those of a FIFO with `size` places. -/
  legal : (Buffer.object fun n => n < c.toNat).Legal (successes (history marks))

/-! ### One access -/

section

variable (tr es : List (Event ι α)) (t : ι)

/-- What a thread returns in a run is what it does in its pieces. -/
theorem returns_append : returns t (tr ++ es) = returns t tr ++ returns t es :=
  List.filterMap_append

/-- The return of an `enqueue` is one of its own thread. -/
theorem returns_enqueueReturned (u : ι) (ok : Bool) :
    returns t ([.enqueueReturned u ok] : List (Event ι α)) =
      if u = t then [.accepted ok] else [] := by
  by_cases hu : u = t <;> simp [returns, hu]

/-- The return of a `dequeue` is one of its own thread. -/
theorem returns_dequeueReturned (u : ι) (pos : BitVec 64) (v : α) :
    returns t [.dequeueReturned u pos v] = if u = t then [.taken (some v)] else [] := by
  by_cases hu : u = t <;> simp [returns, hu]

/-- The return of a `dequeue` without a value is one of its own thread. -/
theorem returns_dequeueRefused (u : ι) :
    returns t ([.dequeueRefused u] : List (Event ι α)) =
      if u = t then [.taken none] else [] := by
  by_cases hu : u = t <;> simp [returns, hu]

omit [DecidableEq ι]

/-- The successful calls of a history are those of its pieces. -/
theorem successes_append (h h' : List ((ι × Op α) × Answer α)) :
    successes (h ++ h') = successes h ++ successes h' :=
  List.filterMap_append

end

/-- What an access of thread `t` does to its call: what takes effect is not under way any more,
    and is returned or pending. -/
structure Answered (t : ι) (acc acc' : List α) (l l' : Local α) (h : List (Op α × Answer α))
    (es : List (Event ι α)) : Prop where
  call : (entering l).toList = h.map Prod.fst ++ (entering l').toList
  answers : pending acc l ++ h.map Prod.snd = returns t es ++ pending acc' l'
  others : ∀ u, u ≠ t → returns u es = []

/-- What it does to the positions: it wins one and there is room, it wins one and the oldest value
    is there, or it wins none. -/
def Claimed (c : Capacity) (t : ι) (acc : List α) (q q' : Shared α) (h : List (Op α × Answer α))
    (es : List (Event ι α)) : Prop :=
  (accepted es = [] ∧ q'.dequeuePos = q.dequeuePos ∧
    successes (h.map fun x => ((t, x.1), x.2)) = []) ∨
  (∃ v, accepted es = [v] ∧ q'.dequeuePos = q.dequeuePos ∧ h = [(.enqueue v, .accepted true)] ∧
    acc.length < q.dequeuePos.toNat + c.toNat) ∨
  (∃ v, accepted es = [] ∧ q'.dequeuePos.toNat = q.dequeuePos.toNat + 1 ∧
    h = [(.dequeue, .taken (some v))] ∧ acc[q.dequeuePos.toNat]? = some v)

section

variable {c : Capacity} {tr : List (Event ι α)} {s : State ι α} {t : ι}

/-- There is room for the position that a producer wins. -/
theorem SharedInv.room_of_claim {acc : List α} {q : Shared α} (inv : SharedInv c acc q) {p : Nat}
    (hpos : q.enqueuePos.toNat = p) (hseq : p ≤ seqAt c q p) :
    p < q.dequeuePos.toNat + c.toNat := by
  have hfree := inv.free_of_claim hpos hseq
  obtain ⟨r, hr, hlt, -, hcase⟩ := inv.cell p
  rw [seqAt_congr hr, hfree] at hcase
  rcases hcase with ⟨hs, -⟩ | ⟨hs, -⟩
  · omega
  · exact absurd (hs ▸ hr.symm) (c.succ_mod_ne c.exp_pos r)

/-- An access of `try_enqueue`. -/
theorem Inv.tryEnqueue_answered (inv : Inv c tr s) {v : α} {pc : EnqueuePc}
    (hl : s.threads t = .enqueue v pc) :
    Answered t (accepted tr) (accepted tr ++ accepted (tryEnqueue c s.shared t v pc).2.2)
        (.enqueue v pc) (tryEnqueue c s.shared t v pc).2.1 (performed c s.shared (.enqueue v pc))
        (tryEnqueue c s.shared t v pc).2.2 ∧
      Claimed c t (accepted tr) s.shared (tryEnqueue c s.shared t v pc).1
        (performed c s.shared (.enqueue v pc)) (tryEnqueue c s.shared t v pc).2.2 := by
  have hlocal := inv.threads t
  rw [hl] at hlocal
  cases pc with
  | loadPos => exact ⟨⟨rfl, rfl, fun _ _ => rfl⟩, .inl ⟨rfl, rfl, rfl⟩⟩
  | loadSequence pos =>
    -- a number behind the position: the queue is full, and the call is answered here
    simp only [tryEnqueue, performed]
    by_cases hzero : dif (s.shared.cell c pos).sequence pos = 0
    · rw [if_pos hzero, if_neg (by omega)]
      exact ⟨⟨rfl, rfl, fun _ _ => rfl⟩, .inl ⟨rfl, rfl, rfl⟩⟩
    · by_cases hneg : dif (s.shared.cell c pos).sequence pos < 0
      · rw [if_neg hzero, if_pos hneg, if_pos hneg]
        exact ⟨⟨rfl, by rw [returns_enqueueReturned, if_pos rfl]; rfl,
          fun u hu => by rw [returns_enqueueReturned, if_neg (Ne.symm hu)]⟩, .inl ⟨rfl, rfl, rfl⟩⟩
      · rw [if_neg hzero, if_neg hneg, if_neg hneg]
        exact ⟨⟨rfl, rfl, fun _ _ => rfl⟩, .inl ⟨rfl, rfl, rfl⟩⟩
  | exchange pos =>
    -- the exchange succeeds: the value is accepted here
    simp only [tryEnqueue, performed]
    split
    · rename_i hpos
      have hE : s.shared.enqueuePos.toNat = pos.toNat := by rw [hpos]
      have hroom := inv.shared.room_of_claim hE hlocal
      have hlen := inv.shared.enqueuePos
      exact ⟨⟨rfl, rfl, fun _ _ => rfl⟩, .inr (.inl ⟨v, rfl, rfl, rfl, by omega⟩)⟩
    · exact ⟨⟨rfl, rfl, fun _ _ => rfl⟩, .inl ⟨rfl, rfl, rfl⟩⟩
  | writeData pos => exact ⟨⟨rfl, rfl, fun _ _ => rfl⟩, .inl ⟨rfl, rfl, rfl⟩⟩
  | storeSequence pos =>
    -- the answer is returned
    simp only [tryEnqueue, performed]
    exact ⟨⟨rfl, by rw [returns_enqueueReturned, if_pos rfl]; rfl,
      fun u hu => by rw [returns_enqueueReturned, if_neg (Ne.symm hu)]⟩, .inl ⟨rfl, rfl, rfl⟩⟩

/-- An access of `try_dequeue`. -/
theorem Inv.tryDequeue_answered (inv : Inv c tr s) (moved : α → α) {pc : DequeuePc α}
    (hl : s.threads t = .dequeue pc) :
    Answered t (accepted tr) (accepted tr ++ accepted (tryDequeue c moved s.shared t pc).2.2)
        (.dequeue pc) (tryDequeue c moved s.shared t pc).2.1 (performed c s.shared (.dequeue pc))
        (tryDequeue c moved s.shared t pc).2.2 ∧
      Claimed c t (accepted tr) s.shared (tryDequeue c moved s.shared t pc).1
        (performed c s.shared (.dequeue pc)) (tryDequeue c moved s.shared t pc).2.2 := by
  have hlocal := inv.threads t
  rw [hl] at hlocal
  cases pc with
  | loadPos => exact ⟨⟨rfl, rfl, fun _ _ => rfl⟩, .inl ⟨rfl, rfl, rfl⟩⟩
  | loadSequence pos =>
    simp only [tryDequeue, performed]
    by_cases hzero : dif (s.shared.cell c pos).sequence (pos + 1#64) = 0
    · rw [if_pos hzero, if_neg (by omega)]
      exact ⟨⟨rfl, rfl, fun _ _ => rfl⟩, .inl ⟨rfl, rfl, rfl⟩⟩
    · by_cases hneg : dif (s.shared.cell c pos).sequence (pos + 1#64) < 0
      · rw [if_neg hzero, if_pos hneg, if_pos hneg]
        exact ⟨⟨rfl, by rw [returns_dequeueRefused, if_pos rfl]; rfl,
          fun u hu => by rw [returns_dequeueRefused, if_neg (Ne.symm hu)]⟩, .inl ⟨rfl, rfl, rfl⟩⟩
      · rw [if_neg hzero, if_neg hneg, if_neg hneg]
        exact ⟨⟨rfl, rfl, fun _ _ => rfl⟩, .inl ⟨rfl, rfl, rfl⟩⟩
  | exchange pos =>
    simp only [tryDequeue, performed]
    split
    · rename_i hpos
      have hD : s.shared.dequeuePos.toNat = pos.toNat := by rw [hpos]
      have hle := inv.shared.le
      have hb := inv.shared.bound
      -- the value of the position is in its cell already
      obtain ⟨-, hlt, hdata⟩ := inv.shared.full_of_claim hD hlocal.2
      rw [cell_data]
      refine ⟨⟨rfl, ?_, fun _ _ => rfl⟩, .inr (.inr ⟨_, rfl, ?_, rfl, ?_⟩)⟩
      · show [Answer.taken (some _)] = [Answer.taken (accepted tr ++ [])[pos.toNat]?]
        rw [List.append_nil, hdata]
      · rw [hD]
        exact toNat_succ (by omega)
      · rw [hD]
        exact hdata
    · exact ⟨⟨rfl, rfl, fun _ _ => rfl⟩, .inl ⟨rfl, rfl, rfl⟩⟩
  | readData pos =>
    obtain ⟨-, -, hdata⟩ := hlocal
    refine ⟨⟨rfl, ?_, fun _ _ => rfl⟩, .inl ⟨rfl, rfl, rfl⟩⟩
    show [Answer.taken (accepted tr)[pos.toNat]?] ++ [] =
      [] ++ [Answer.taken (some (s.shared.cell c pos).data)]
    rw [hdata, cell_data]
    rfl
  | storeSequence pos out =>
    simp only [tryDequeue, performed]
    exact ⟨⟨rfl, by rw [returns_dequeueReturned, if_pos rfl]; rfl,
      fun u hu => by rw [returns_dequeueReturned, if_neg (Ne.symm hu)]⟩, .inl ⟨rfl, rfl, rfl⟩⟩

end

/-! ### Every run -/

/-- The two lists of values are those of the positions won. -/
structure Tracks (c : Capacity) (marks : List (Mark ι α)) (tr : List (Event ι α))
    (s : State ι α) : Prop where
  linear : Linear c marks tr s
  puts : Buffer.puts (successes (history marks)) = accepted tr
  takes : Buffer.takes (successes (history marks)) = (accepted tr).take s.shared.dequeuePos.toNat

section

variable {c : Capacity} {marks : List (Mark ι α)} {tr : List (Event ι α)} {s : State ι α} {t : ι}

omit [DecidableEq ι] in
/-- The answer of a thread that waits for nothing but itself. -/
theorem LocalInv.pending_mono {acc acc' : List α} {q : Shared α} {l : Local α}
    (h : LocalInv c acc q l) (hacc : acc <+: acc') : pending acc' l = pending acc l := by
  unfold pending
  split
  · rfl
  · rfl
  · rw [getElem?_mono hacc h.2.2, h.2.2]
  · rfl
  · rfl

/-- A thread starts a call. -/
theorem Tracks.call (h : Tracks c marks tr s) {l : Local α} {op : Op α}
    (hidle : s.threads t = .idle) (hl : entering l = some op)
    (hnone : pending (accepted tr) l = []) :
    Tracks c (marks ++ [.called (t, op)]) tr
      (s.commit t (s.shared, l, ([] : List (Event ι α)))).1 := by
  obtain ⟨⟨horder, hanswers, hlegal⟩, hputs, htakes⟩ := h
  have hmarks : history (marks ++ [.called (t, op)]) = history marks := by
    rw [history_append]
    exact List.append_nil _
  have hself : (s.commit t (s.shared, l, ([] : List (Event ι α)))).1.threads t = l :=
    Function.update_self ..
  have hother (u : ι) (hu : u ≠ t) :
      (s.commit t (s.shared, l, ([] : List (Event ι α)))).1.threads u = s.threads u :=
    Function.update_of_ne hu ..
  refine ⟨⟨?_, fun u => ?_, by rw [hmarks]; exact hlegal⟩, by rw [hmarks]; exact hputs,
    by rw [hmarks]; exact htakes⟩
  · rw [hmarks, calls_append]
    refine horder.start (t := t) ?_ ?_ fun u hu => ?_
    · rw [hidle]
      rfl
    · rw [hself]
      exact hl
    · rw [hother u hu]
  · rw [hmarks, hanswers u]
    by_cases hu : u = t
    · rw [hu, hself, hidle, hnone]
      rfl
    · rw [hother u hu]

section

variable {p : List (Op α × Answer α)}

omit [DecidableEq ι] in
/-- The successful calls after it. -/
theorem Claimed.legal {q q' : Shared α} {hist : List ((ι × Op α) × Answer α)}
    (h : Claimed c t acc q q' p es) (hle : q.dequeuePos.toNat ≤ acc.length)
    (hlegal : (Buffer.object fun n => n < c.toNat).Legal (successes hist))
    (hputs : Buffer.puts (successes hist) = acc)
    (htakes : Buffer.takes (successes hist) = acc.take q.dequeuePos.toNat) :
    (Buffer.object fun n => n < c.toNat).Legal
        (successes (hist ++ p.map fun x => ((t, x.1), x.2))) ∧
      Buffer.puts (successes (hist ++ p.map fun x => ((t, x.1), x.2))) = acc ++ accepted es ∧
      Buffer.takes (successes (hist ++ p.map fun x => ((t, x.1), x.2))) =
        (acc ++ accepted es).take q'.dequeuePos.toNat := by
  have htaken : (acc.take q.dequeuePos.toNat).length = q.dequeuePos.toNat :=
    List.length_take_of_le hle
  rw [successes_append]
  rcases h with ⟨hes, hD, hnone⟩ | ⟨v, hes, hD, rfl, hroom⟩ | ⟨v, hes, hD, rfl, hv⟩
  · rw [hnone, hes, hD, List.append_nil, List.append_nil]
    exact ⟨hlegal, hputs, htakes⟩
  · refine ⟨Buffer.Legal.accept hlegal v ?_, ?_, ?_⟩
    · rw [hputs, htakes, htaken]
      exact decide_eq_true (by omega)
    · rw [Buffer.puts_append, hputs, hes]
      rfl
    · rw [Buffer.takes_append, htakes, hD, List.take_append_of_le_length hle]
      exact List.append_nil _
  · have hnext : acc.take (q.dequeuePos.toNat + 1) = acc.take q.dequeuePos.toNat ++ [v] := by
      rw [List.take_add_one, hv]
      rfl
    refine ⟨Buffer.Legal.deliver hlegal ?_, ?_, ?_⟩
    · rw [hputs, htakes, ← hnext]
      exact List.take_prefix _ _
    · rw [Buffer.puts_append, hputs, hes]
      rfl
    · rw [Buffer.takes_append, htakes, hD, hes, List.append_nil, hnext]
      rfl

end

/-- A thread does an access. -/
theorem Tracks.access (h : Tracks c marks tr s) (inv : Inv c tr s)
    {r : Shared α × Local α × List (Event ι α)} {p : List (Op α × Answer α)}
    (hanswered : Answered t (accepted tr) (accepted tr ++ accepted r.2.2) (s.threads t) r.2.1 p
      r.2.2)
    (hclaimed : Claimed c t (accepted tr) s.shared r.1 p r.2.2) :
    Tracks c (marks ++ p.map fun x => .performed (t, x.1) x.2) (tr ++ r.2.2) (s.commit t r).1 := by
  have hhistory : history (marks ++ p.map fun x => .performed (t, x.1) x.2) =
      history marks ++ p.map fun x => ((t, x.1), x.2) := by
    rw [history_append, history_performed]
  have hcalls : calls (marks ++ p.map fun x => .performed (t, x.1) x.2) = calls marks := by
    rw [calls_append, calls_performed, List.append_nil]
  have hself : (s.commit t r).1.threads t = r.2.1 := Function.update_self ..
  have hother (u : ι) (hu : u ≠ t) : (s.commit t r).1.threads u = s.threads u :=
    Function.update_of_ne hu ..
  obtain ⟨⟨horder, hanswers, hlegal⟩, hputs, htakes⟩ := h
  obtain ⟨hlegal', hputs', htakes'⟩ := hclaimed.legal
    (inv.shared.enqueuePos ▸ inv.shared.le) hlegal hputs htakes
  refine ⟨⟨?_, fun u => ?_, ?_⟩, ?_, ?_⟩
  -- program order, answers and legality, and what the queue holds
  · rw [hhistory, hcalls]
    refine horder.performed (t := t) ?_ fun u hu => ?_
    · rw [hself]
      exact hanswered.call
    · rw [hother u hu]
  · rw [hhistory, accepted_append, returns_append]
    refine answers_performed (fun u => returns u r.2.2)
      (fun u => pending (accepted tr ++ accepted r.2.2) ((s.commit t r).1.threads u))
      hanswers ?_ (fun u hu => ⟨hanswered.others u hu, ?_⟩) u
    · rw [hself]
      exact hanswered.answers
    · rw [hother u hu]
      exact (inv.threads u).pending_mono (List.prefix_append _ _)
  · rw [hhistory]
    exact hlegal'
  · rw [hhistory, accepted_append]
    exact hputs'
  · rw [hhistory, accepted_append]
    exact htakes'

/-- **Step lemma.** -/
theorem Tracks.step (h : Tracks c marks tr s) (inv : Inv c tr s) {moved : α → α} {s' : State ι α}
    {a : Action ι α} {es : List (Event ι α)} (hnext : next c moved s a = some (s', es)) :
    Tracks c (marks ++ record c s a) (tr ++ es) s' := by
  cases a with
  | tryEnqueue t v =>
    simp only [next] at hnext
    split at hnext
    · rename_i hidle
      cases hnext
      exact (List.append_nil tr).symm ▸ h.call hidle rfl rfl
    · exact absurd hnext (by simp)
  | tryDequeue t =>
    simp only [next] at hnext
    split at hnext
    · rename_i hidle
      cases hnext
      exact (List.append_nil tr).symm ▸ h.call hidle rfl rfl
    · exact absurd hnext (by simp)
  | step t =>
    simp only [next] at hnext
    split at hnext
    · exact absurd hnext (by simp)
    · rename_i v pc hl
      obtain ⟨hanswered, hclaimed⟩ := inv.tryEnqueue_answered hl
      cases hnext
      simp only [record, hl]
      exact h.access inv (hl ▸ hanswered) hclaimed
    · rename_i pc hl
      obtain ⟨hanswered, hclaimed⟩ := inv.tryDequeue_answered moved hl
      cases hnext
      simp only [record, hl]
      exact h.access inv (hl ▸ hanswered) hclaimed

end

/-- **Linearizability of the successful calls.** For every size, any number of threads and every
    interleaving with fewer than `2 ^ 63` claimed positions. -/
theorem successes_linear_of_run {c : Capacity} {moved : α → α} {raw : Nat → α}
    {tr : List (Event ι α ⊕ Mark ι α)} {s : State ι α}
    (run : ((machine c moved raw).recording (record c)).Run tr s)
    (hb : (accepted (Machine.events tr)).length < 2 ^ 63) :
    Linear c (Machine.records tr) (Machine.events tr) s := by
  suffices h : Tracks c (Machine.records tr) (Machine.events tr) s from h.linear
  revert hb
  refine run.invariant (I := fun tr s => (accepted (Machine.events tr)).length < 2 ^ 63 →
    Tracks c (Machine.records tr) (Machine.events tr) s) ?_ ?_
  · intro _
    exact ⟨⟨fun t => rfl, fun t => rfl, SeqObject.legal_nil⟩, rfl, rfl⟩
  · intro tr es s s' a run ih allowed step hb
    obtain ⟨hnext, hrecords⟩ := Machine.next_recording step
    rw [Machine.events_append, accepted_append, List.length_append] at hb
    rw [Machine.events_append, Machine.records_append, hrecords]
    exact (ih (by omega)).step (Inv.of_run run.forget (by omega)) hnext

/-- Two threads pass one value; the first look for it comes too early. -/
theorem successes_linear_of_run_two : ∃ tr s,
    ((machine (ι := Bool) (α := Nat) ⟨⟨1, by decide⟩, by decide⟩ id id).recording
      (record ⟨⟨1, by decide⟩, by decide⟩)).Run tr s ∧
    history (Machine.records tr) = [((false, .dequeue), .taken none),
      ((true, .enqueue 7), .accepted true), ((false, .dequeue), .taken (some 7))] ∧
    Linear ⟨⟨1, by decide⟩, by decide⟩ (Machine.records tr) (Machine.events tr) s := by
  obtain ⟨tr, s, run, hhistory, hb⟩ := Machine.exists_run
    (M := (machine (ι := Bool) (α := Nat) ⟨⟨1, by decide⟩, by decide⟩ id id).recording
      (record ⟨⟨1, by decide⟩, by decide⟩))
    (P := fun tr _ => history (Machine.records tr) = [((false, .dequeue), .taken none),
      ((true, .enqueue 7), .accepted true), ((false, .dequeue), .taken (some 7))] ∧
      (accepted (Machine.events tr)).length < 2 ^ 63)
    ([Action.tryEnqueue true 7, Action.tryDequeue false, .step false, .step false] ++
      List.replicate 5 (Action.step true) ++ Action.tryDequeue false ::
      List.replicate 5 (Action.step false)) (by decide +kernel)
  exact ⟨tr, s, run, hhistory, successes_linear_of_run run hb⟩

end HopeThreading.MpmcBoundedQueue
