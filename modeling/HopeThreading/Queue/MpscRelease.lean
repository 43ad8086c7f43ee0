import HopeThreading.Queue.MpscNodes
import HopeThreading.Queue.MpscSafety

namespace HopeThreading.MpscQueue

open Transition Memory

/-!
# `mpsc_queue` — what the destructor deletes

The destructor deletes the nodes from `m_tail` on, whatever the policy is.  With the buffered
policy the nodes that `try_dequeue` has left are linked in front of `m_tail`, from
`m_buffer_head` on, and nobody deletes them.

For a sequence of complete calls the number of these nodes depends on the calls alone
(`Tally`): a value taken out leaves one more, and an enqueue takes one of them if there is one.
All nodes are deleted once each if none is left in the end, or with `newOnly`, where
`try_dequeue` deletes them (`freedOnce_iff`).
-/

variable {ι α : Type*} [DecidableEq ι]

/-! ### Complete calls -/

/-- A call, with the thread that makes it. -/
inductive Call (ι α : Type*)
  | enqueue (t : ι) (inValue : α)
  | tryDequeue

/-- How the call begins, … -/
def Call.start : Call ι α → Action ι α
  | .enqueue t v => .enqueue t v
  | .tryDequeue => .tryDequeue

/-- … how it goes on, … -/
def Call.go : Call ι α → Action ι α
  | .enqueue t _ => .produce t
  | .tryDequeue => .consume

/-- … and when it has returned. -/
def Call.Returned (s : State ι α) : Call ι α → Prop
  | .enqueue t _ => s.producers t = .idle
  | .tryDequeue => s.consumer = .idle

/-- The runs that make one call after the other, each until it returns. -/
inductive Calls (policy : AllocPolicy) (moved : α → α) (blank : α) :
    List (Call ι α) → List (Event ι α) → State ι α → Prop
  | start : Calls policy moved blank [] [] (machine policy moved blank).init
  | snoc {calls : List (Call ι α)} {tr tr' : List (Event ι α)} {s s' : State ι α}
      (before : Calls policy moved blank calls tr s) (c : Call ι α) (n : Nat)
      (exec : (machine policy moved blank).execIf (fun _ _ => True)
        (c.start :: List.replicate n c.go) tr s = some (tr', s'))
      (returned : c.Returned s') : Calls policy moved blank (calls ++ [c]) tr' s'

/-- `~mpsc_queue()`: the nodes it deletes. -/
def destroy (fuel : Nat) (q : Shared α) : Option (List Nat) :=
  (Heap.freeFrom fuel q.heap (some q.tail)).map Prod.snd

/-- A whole life of the queue: constructed, used by `calls`, and destroyed. -/
def Life (policy : AllocPolicy) (moved : α → α) (blank : α) (calls : List (Call ι α))
    (tr : List (Event ι α)) : Prop :=
  ∃ before s fuel nodes, Calls policy moved blank calls before s ∧
    destroy fuel s.shared = some nodes ∧ tr = before ++ nodes.map .deleted

/-- Every node allocated is deleted exactly once. -/
def FreedOnce (tr : List (Event ι α)) : Prop := ∀ p ∈ allocated tr, (deleted tr).count p = 1

/-! ### What the calls leave -/

/-- The number of values waiting, and of nodes before `m_tail` with the buffered policy. -/
structure Tally where
  waiting : Nat
  spare : Nat

/-- What a call adds to them. -/
def Tally.call (n : Tally) : Call ι α → Tally
  | .enqueue _ _ => { waiting := n.waiting + 1, spare := n.spare - 1 }
  | .tryDequeue => if n.waiting = 0 then n else { waiting := n.waiting - 1, spare := n.spare + 1 }

/-- The nodes before `m_tail` after the calls. -/
def spareNodes (calls : List (Call ι α)) : Nat := (calls.foldl Tally.call ⟨0, 0⟩).spare

/-- The tally of a history. -/
structure Tally.Of (policy : AllocPolicy) (g : History α) (n : Tally) : Prop where
  waiting : g.accepted.length = g.taken.length + n.waiting
  spare : policy = .buffered → g.taken.length = g.retired + n.spare

/-! ### One call -/

/-- Nobody is inside a call. -/
structure Quiet (s : State ι α) : Prop where
  producers : ∀ t, s.producers t = .idle
  consumer : s.consumer = .idle

/-- What a complete call does: it returns, and changes the tally. -/
def Completes (policy : AllocPolicy) (moved : α → α) (blank : α) (tr : List (Event ι α))
    (s : State ι α) (c : Call ι α) : Prop :=
  ∃ n tr' s', (machine policy moved blank).execIf NotStale (c.start :: List.replicate n c.go) tr s =
    some (tr', s') ∧ Quiet s' ∧
    ∀ k, Tally.Of policy (history tr) k → Tally.Of policy (history tr') (k.call c)

section

variable {policy : AllocPolicy} {moved : α → α} {blank : α} {tr : List (Event ι α)}
  {s : State ι α}

/-- A producer that is done leaves the queue quiet. -/
theorem Quiet.update (quiet : Quiet s) (t : ι) (q : Shared α) :
    Quiet { s with shared := q, producers := Function.update s.producers t .idle } where
  producers := by
    intro u
    by_cases hu : u = t
    · rw [hu]; exact Function.update_self _ _ _
    · exact (Function.update_of_ne hu _ _).trans (quiet.producers u)
  consumer := quiet.consumer

omit [DecidableEq ι] in
/-- The last node, which an `enqueue` links to the new one. -/
theorem Inv.head_live (inv : Inv policy (history tr) s) :
    ∃ x, s.shared.heap.get s.shared.head = some x ∧ s.shared.head ≠ s.shared.heap.fresh := by
  have hlen := inv.length
  have hret := inv.retired
  have htaken := inv.taken_le
  have hlive := inv.live (by omega) inv.head
  obtain ⟨x, hx⟩ := Option.ne_none_iff_exists'.mp hlive
  exact ⟨x, hx, Nat.ne_of_lt (Heap.lt_fresh hlive)⟩

/-- An `enqueue` that allocates, with `newOnly`. -/
theorem exec_enqueue_newOnly (inv : Inv .newOnly (history tr) s) (quiet : Quiet s) (t : ι) (v : α) :
    ∃ s', (machine .newOnly moved blank).execIf NotStale
      (.enqueue t v :: List.replicate 3 (.produce t)) tr s =
      some (tr ++ [Event.allocated s.shared.heap.fresh, Event.exchanged t s.shared.heap.fresh v,
        Event.enqueued t], s') ∧ Quiet s' := by
  obtain ⟨x, hx, hne⟩ := inv.head_live
  have hidle := quiet.producers t
  simp [Machine.execIf, machine, next, NotStale,
    hidle, State.produced, Producer.start, enqueue, hx, hne, Producer.NotStale, quiet.update t]

/-- An `enqueue` that allocates, with the buffered policy: the buffer is empty. -/
theorem exec_enqueue_empty (inv : Inv .buffered (history tr) s) (quiet : Quiet s) (t : ι) (v : α)
    (hempty : s.shared.bufferHead = some s.shared.tail) :
    ∃ s', (machine .buffered moved blank).execIf NotStale
      (.enqueue t v :: List.replicate 5 (.produce t)) tr s =
      some (tr ++ [Event.allocated s.shared.heap.fresh, Event.exchanged t s.shared.heap.fresh v,
        Event.enqueued t], s') ∧ Quiet s' := by
  obtain ⟨x, hx, hne⟩ := inv.head_live
  have hidle := quiet.producers t
  simp [Machine.execIf, machine, next, NotStale, hempty,
    hidle, State.produced, Producer.start, enqueue, hx, hne, Producer.NotStale, quiet.update t]

/-- An `enqueue` that takes the first node of the buffer. -/
theorem exec_enqueue_recycled (inv : Inv .buffered (history tr) s) (quiet : Quiet s) (t : ι) (v : α)
    {p : Nat} {n : Option Nat} (hp : s.shared.bufferHead = some p) (hne : p ≠ s.shared.tail)
    (hn : s.shared.heap.nextOf p = some n) (hhead : s.shared.head ≠ p) :
    ∃ s', (machine .buffered moved blank).execIf NotStale
      (.enqueue t v :: List.replicate 8 (.produce t)) tr s =
      some (tr ++ [Event.recycled t p, Event.exchanged t p v, Event.enqueued t], s') ∧
      Quiet s' := by
  obtain ⟨x, hx, -⟩ := inv.head_live
  obtain ⟨y, hy, rfl⟩ := Option.map_eq_some_iff.mp hn
  have hidle := quiet.producers t
  simp [Machine.execIf, machine, next, NotStale, hp, hne, hn, hy, hhead,
    hidle, State.produced, Producer.start, enqueue, hx, Producer.NotStale, quiet.update t]

/-- A `try_dequeue` that finds nothing. -/
theorem exec_tryDequeue_none (quiet : Quiet s)
    (hnull : s.shared.heap.nextOf s.shared.tail = some none) :
    ∃ s', (machine policy moved blank).execIf NotStale (.tryDequeue :: List.replicate 1 .consume)
      tr s = some (tr ++ [Event.refused], s') ∧ Quiet s' := by
  have hidle := quiet.consumer
  refine ⟨{ s with consumer := .idle }, ?_, quiet.producers, rfl⟩
  simp [Machine.execIf, machine, next, NotStale, hidle, State.consumed, tryDequeue, hnull]

/-- A `try_dequeue` that takes a value, with `newOnly`. -/
theorem exec_tryDequeue_newOnly (quiet : Quiet s) {p : Nat} {v : α} {x : Node α}
    (hlink : s.shared.heap.nextOf s.shared.tail = some (some p))
    (hval : s.shared.heap.valueOf p = some v) (hx : s.shared.heap.get s.shared.tail = some x)
    (hne : s.shared.tail ≠ p) :
    ∃ s', (machine .newOnly moved blank).execIf NotStale
      (.tryDequeue :: List.replicate 5 .consume) tr s =
      some (tr ++ [Event.advanced v, Event.deleted s.shared.tail, Event.dequeued v], s') ∧
      Quiet s' := by
  obtain ⟨y, hy, rfl⟩ := Option.map_eq_some_iff.mp hval
  have hidle := quiet.consumer
  have hquiet : ∀ q : Shared α, Quiet { s with shared := q, consumer := .idle } := fun q =>
    ⟨quiet.producers, rfl⟩
  simp [Machine.execIf, machine, next, NotStale, hidle, State.consumed, tryDequeue, hlink, hval,
    hy, hx, hne, hquiet]

/-! ### Every call completes -/

omit [DecidableEq ι] in
/-- What the first node of the buffer is. -/
theorem Inv.buffer_first (inv : Inv .buffered (history tr) s) :
    (s.shared.bufferHead = some s.shared.tail ∧
      (history tr).taken.length = (history tr).retired) ∨
    ∃ p b, s.shared.bufferHead = some p ∧ p ≠ s.shared.tail ∧ s.shared.head ≠ p ∧
      s.shared.heap.nextOf p = some (some b) ∧
      (history tr).retired < (history tr).taken.length := by
  have hlen := inv.length
  have hret := inv.retired
  have htaken := inv.taken_le
  rcases Nat.lt_or_ge (history tr).retired (history tr).taken.length with hlt | hge
  · right
    have hp := List.getElem?_eq_getElem (l := (history tr).order) (i := (history tr).retired)
      (by omega)
    have hb := List.getElem?_eq_getElem (l := (history tr).order) (i := (history tr).retired + 1)
      (by omega)
    refine ⟨_, _, (inv.buffer rfl).trans hp, fun heq => ?_, fun heq => ?_,
      inv.passed le_rfl hlt hp hb, hlt⟩
    · have := inv.chain.distinct _ _ _ le_rfl hret hp (heq ▸ inv.tail)
      omega
    · have := inv.chain.distinct _ _ _ le_rfl (by omega) hp (heq ▸ inv.head)
      omega
  · left
    have heq : (history tr).taken.length = (history tr).retired := by omega
    refine ⟨?_, heq⟩
    rw [inv.buffer rfl, ← heq, inv.tail]

/-- A call that runs through, and does what the tally says, completes. -/
theorem Completes.of_exec {c : Call ι α} {n : Nat} {es : List (Event ι α)}
    (hexec : ∃ s', (machine policy moved blank).execIf NotStale
      (c.start :: List.replicate n c.go) tr s = some (tr ++ es, s') ∧ Quiet s')
    (htally : ∀ k, Tally.Of policy (history tr) k →
      Tally.Of policy (es.foldl History.add (history tr)) (k.call c)) :
    Completes policy moved blank tr s c := by
  obtain ⟨s', hexec, hquiet⟩ := hexec
  refine ⟨n, _, s', hexec, hquiet, fun k hk => ?_⟩
  rw [history_append]
  exact htally k hk

/-- From a quiet state `enqueue` runs through. -/
theorem Inv.completes_enqueue (inv : Inv policy (history tr) s) (quiet : Quiet s) (t : ι) (v : α) :
    Completes policy moved blank tr s (.enqueue t v) := by
  cases policy with
  | newOnly =>
    refine .of_exec (exec_enqueue_newOnly inv quiet t v) fun k hk => ⟨?_, fun h => by cases h⟩
    have hwaiting := hk.waiting
    simp only [List.foldl, History.add, Tally.call, List.length_append, List.length_singleton]
    omega
  | buffered =>
    rcases inv.buffer_first with ⟨hempty, heq⟩ | ⟨p, b, hp, hne, hhead, hb, hlt⟩
    · refine .of_exec (exec_enqueue_empty inv quiet t v hempty) fun k hk => ?_
      have hwaiting := hk.waiting
      have hspare := hk.spare rfl
      constructor
      · simp only [List.foldl, History.add, Tally.call, List.length_append, List.length_singleton]
        omega
      · intro _
        simp only [List.foldl, History.add, Tally.call]
        omega
    · refine .of_exec (exec_enqueue_recycled inv quiet t v hp hne hb hhead) fun k hk => ?_
      have hwaiting := hk.waiting
      have hspare := hk.spare rfl
      constructor
      · simp only [List.foldl, History.add, Tally.call, List.length_append, List.length_singleton]
        omega
      · intro _
        simp only [List.foldl, History.add, Tally.call]
        omega

/-- From a quiet state `try_dequeue` runs through. -/
theorem Inv.completes_tryDequeue (inv : Inv policy (history tr) s) (quiet : Quiet s) :
    Completes policy moved blank tr s .tryDequeue := by
  have hlen := inv.length
  have hret := inv.retired
  rcases Nat.lt_or_ge (history tr).taken.length (history tr).accepted.length with hlt | hge
  · -- the next value is linked, since no producer is inside a call
    have hp := List.getElem?_eq_getElem (l := (history tr).order)
      (i := (history tr).taken.length + 1) (by omega)
    have hlink := (inv.chain.linked _ _ _ inv.retired inv.tail hp).resolve_right
      fun ⟨_, t, v, ht⟩ => by rw [quiet.producers t] at ht; cases ht
    have hval : s.shared.heap.valueOf _ = some _ :=
      (inv.values _ _ (by rw [quiet.consumer]; exact le_rfl) hp).trans
        (List.getElem?_eq_getElem hlt)
    have htally : ∀ k : Tally, Tally.Of policy (history tr) k →
        k.call (.tryDequeue : Call ι α) = ⟨k.waiting - 1, k.spare + 1⟩ ∧ 0 < k.waiting := by
      intro k hk
      have hwaiting := hk.waiting
      exact ⟨if_neg (by omega), by omega⟩
    cases policy with
    | newOnly =>
      obtain ⟨x, hx⟩ := Option.ne_none_iff_exists'.mp (inv.live inv.retired inv.tail)
      have hne : s.shared.tail ≠ (history tr).order[(history tr).taken.length + 1] := by
        intro heq
        have := inv.chain.distinct _ _ _ hret (by omega) (heq ▸ inv.tail) hp
        omega
      refine .of_exec (exec_tryDequeue_newOnly quiet hlink hval hx hne) fun k hk => ?_
      obtain ⟨hcall, hpos⟩ := htally k hk
      have hwaiting := hk.waiting
      rw [hcall]
      refine ⟨?_, fun h => by cases h⟩
      simp only [List.foldl, History.add, List.length_append, List.length_singleton]
      omega
    | buffered =>
      obtain ⟨s', hexec, hproducers, hconsumer⟩ :=
        exec_dequeueCall moved blank quiet.consumer hlink hval tr
      refine .of_exec (n := 4) ⟨s', hexec, fun t => by rw [hproducers]; exact quiet.producers t,
        hconsumer⟩ fun k hk => ?_
      obtain ⟨hcall, hpos⟩ := htally k hk
      have hwaiting := hk.waiting
      have hspare := hk.spare rfl
      rw [hcall]
      constructor
      · simp only [List.foldl, History.add, List.length_append, List.length_singleton]
        omega
      · intro _
        simp only [List.foldl, History.add, List.length_append, List.length_singleton]
        omega
  · -- nothing waits
    have hnull := inv.chain.last _ _ hret inv.tail (by have := inv.taken_le; omega)
    refine .of_exec (exec_tryDequeue_none quiet hnull) fun k hk => ?_
    have hwaiting := hk.waiting
    have hcall : k.call (.tryDequeue : Call ι α) = k := if_pos (by omega)
    rw [hcall]
    exact ⟨hk.waiting, hk.spare⟩

/-- From a quiet state every call runs through. -/
theorem Inv.completes (inv : Inv policy (history tr) s) (quiet : Quiet s) (c : Call ι α) :
    Completes policy moved blank tr s c := by
  cases c with
  | enqueue t v => exact inv.completes_enqueue quiet t v
  | tryDequeue => exact inv.completes_tryDequeue quiet

/-! ### Sequences of calls -/

variable {calls : List (Call ι α)}

omit [DecidableEq ι] in
/-- In a quiet state every call has returned. -/
theorem Quiet.returned (quiet : Quiet s) (c : Call ι α) : c.Returned s := by
  cases c with
  | enqueue t v => exact quiet.producers t
  | tryDequeue => exact quiet.consumer

/-- A call that has returned takes no step more. -/
theorem next_returned {c : Call ι α} (h : c.Returned s) :
    (machine policy moved blank).next s c.go = none := by
  cases c with
  | enqueue t v =>
    have hidle : s.producers t = .idle := h
    simp [machine, next, Call.go, hidle, enqueue]
  | tryDequeue =>
    have hidle : s.consumer = .idle := h
    simp [machine, next, Call.go, hidle, tryDequeue]

/-- **Run lemma.** Complete calls make no stale exchange, and leave what the tally says. -/
theorem Calls.leave (h : Calls policy moved blank calls tr s) :
    (machine policy moved blank).RunIf NotStale tr s ∧ Quiet s ∧
      Tally.Of policy (history tr) (calls.foldl Tally.call ⟨0, 0⟩) := by
  induction h with
  | start => exact ⟨.start, ⟨fun _ => rfl, rfl⟩, rfl, fun _ => rfl⟩
  | @snoc calls tr tr' s s' _ c n exec returned ih =>
    obtain ⟨run, quiet, tally⟩ := ih
    have hcompletes : Completes policy moved blank tr s c :=
      (Inv.of_run (fun _ _ _ h => h) run).1.completes quiet c
    obtain ⟨m, tr₁, s₁, hexec, hquiet, htally⟩ := hcompletes
    -- the call cannot be completed in another way
    have hsame : (tr₁, s₁) = (tr', s') := by
      have hmono : (machine policy moved blank).execIf (fun _ _ => True)
          (c.start :: List.replicate m c.go) tr s = some (tr₁, s₁) :=
        Machine.execIf_mono (fun _ _ _ => trivial) hexec
      simp only [Machine.execIf, if_true] at exec hmono
      split at exec
      · exact absurd exec (by simp)
      · rename_i step
        rw [step] at hmono
        have hend : ∀ s, c.Returned s → (machine policy moved blank).next s c.go = none :=
          fun _ hret => next_returned hret
        exact Machine.execIf_replicate_unique hend hmono (hquiet.returned c) exec returned
    cases hsame
    rw [List.foldl_append]
    exact ⟨run.execIf hexec, hquiet, htally _ tally⟩

/-- Every sequence of calls has a run that makes them. -/
theorem exists_calls (policy : AllocPolicy) (moved : α → α) (blank : α)
    (calls : List (Call ι α)) : ∃ tr s, Calls policy moved blank calls tr s := by
  induction calls using List.reverseRecOn with
  | nil => exact ⟨_, _, .start⟩
  | append_singleton calls c ih =>
    obtain ⟨tr, s, h⟩ := ih
    obtain ⟨run, quiet, -⟩ := h.leave
    have hcompletes : Completes policy moved blank tr s c :=
      (Inv.of_run (fun _ _ _ h => h) run).1.completes quiet c
    obtain ⟨n, tr', s', hexec, hquiet, -⟩ := hcompletes
    exact ⟨tr', s', h.snoc c n (Machine.execIf_mono (fun _ _ _ => trivial) hexec)
      (hquiet.returned c)⟩

/-! ### The destructor -/

omit [DecidableEq ι] in
/-- It deletes the nodes from `m_tail` on, and comes to an end. -/
theorem Inv.destroy (inv : Inv policy (history tr) s) (quiet : Quiet s) (fuel : Nat) :
    MpscQueue.destroy fuel s.shared =
      if (history tr).order.length ≤ (history tr).taken.length + fuel then
        some ((history tr).order.drop (history tr).taken.length)
      else none := by
  have hlinked : Chain s.shared.heap (history tr).order (history tr).retired fun _ _ => False := by
    refine inv.chain.frame (fun _ _ _ _ => rfl) fun a b ⟨t, v, ht⟩ => ?_
    rw [quiet.producers t] at ht
    cases ht
  rw [MpscQueue.destroy, ← inv.tail]
  exact (hlinked.retire inv.retired).freeFrom fuel

omit [DecidableEq ι] in
/-- The destructor allocates nothing. -/
theorem allocated_deletions (nodes : List Nat) :
    (allocated (nodes.map (Event.deleted : Nat → Event ι α))).tail = [] := by
  induction nodes with
  | nil => rfl
  | cons p rest ih => exact ih

omit [DecidableEq ι] in
/-- The destructor deletes the nodes that it goes through. -/
theorem deleted_deletions (nodes : List Nat) :
    deleted (nodes.map (Event.deleted : Nat → Event ι α)) = nodes := by
  induction nodes with
  | nil => rfl
  | cons p rest ih => exact congrArg (p :: ·) ih

omit [DecidableEq ι] in
/-- All nodes have been deleted once each if the nodes given up reach up to `m_tail`, and only
    then. -/
theorem Accounted.freed_iff (acc : Accounted tr s) (inv : Inv policy (history tr) s)
    (quiet : Quiet s) :
    FreedOnce (tr ++ ((history tr).order.drop (history tr).taken.length).map Event.deleted) ↔
      (history tr).retired = (history tr).taken.length := by
  have hallocated : allocated (tr ++ ((history tr).order.drop
      (history tr).taken.length).map Event.deleted) = List.range s.shared.heap.fresh := by
    rw [← acc.ledger.handedOut, allocated_append, allocated_deletions, List.append_nil]
  have hdeleted : deleted (tr ++ ((history tr).order.drop
      (history tr).taken.length).map Event.deleted) =
      deleted tr ++ (history tr).order.drop (history tr).taken.length := by
    rw [deleted_append, deleted_deletions]
  have hmem : ∀ p, p ∈ (history tr).order.drop (history tr).taken.length ↔
      ∃ i, (history tr).taken.length ≤ i ∧ (history tr).order[i]? = some p := by
    intro p
    rw [List.mem_iff_getElem?]
    constructor
    · rintro ⟨i, hi⟩
      rw [List.getElem?_drop] at hi
      exact ⟨_, Nat.le_add_right _ _, hi⟩
    · rintro ⟨i, hle, hi⟩
      refine ⟨i - (history tr).taken.length, ?_⟩
      rw [List.getElem?_drop, Nat.add_sub_cancel' hle]
      exact hi
  have hret := inv.retired
  -- what is deleted before is not there any more
  have hdead : ∀ i p, (history tr).retired ≤ i → (history tr).order[i]? = some p →
      p ∉ deleted tr := fun i p hi hget hdel =>
    inv.live hi hget ((acc.ledger.gone p).mp hdel).2
  rw [FreedOnce, hallocated, hdeleted]
  constructor
  · intro hall
    by_contra hne
    -- the first node of the queue is before `m_tail`
    have hlen := inv.length
    have htaken := inv.taken_le
    have hp := List.getElem?_eq_getElem (l := (history tr).order) (i := (history tr).retired)
      (by omega)
    have hcount := hall _ (List.mem_range.mpr (Heap.lt_fresh (inv.live le_rfl hp)))
    rw [List.count_append, List.count_eq_zero_of_not_mem (hdead _ _ le_rfl hp),
      List.count_eq_zero_of_not_mem] at hcount
    · omega
    · rw [hmem]
      rintro ⟨i, hi, hget⟩
      have := inv.chain.distinct _ _ _ (by omega) le_rfl hget hp
      omega
  · intro heq p hp
    rw [List.count_append]
    by_cases hlive : s.shared.heap.get p = none
    · have hdel := (acc.ledger.gone p).mpr ⟨List.mem_range.mp hp, hlive⟩
      rw [List.count_eq_one_of_mem acc.ledger.once hdel, List.count_eq_zero_of_not_mem]
      rw [hmem]
      rintro ⟨i, hi, hget⟩
      exact inv.live (hret.trans hi) hget hlive
    · rcases acc.owned p hlive with ⟨i, hi, hget⟩ | ⟨t, ht⟩
      · rw [List.count_eq_zero_of_not_mem (hdead i p hi hget),
          List.count_eq_one_of_mem (inv.chain.nodup_drop hret) ((hmem p).mpr ⟨i, heq ▸ hi, hget⟩)]
      · rw [quiet.producers t] at ht
        cases ht

end

/-- **Exactly once, if nothing is left in the buffer.** For both policies and every sequence of
    complete calls: the queue can be used and destroyed in this way, and whenever it has been,
    every node was deleted exactly once just if the policy is `newOnly` or every node that
    `try_dequeue` has left was taken again by an `enqueue`. -/
theorem freedOnce_iff (policy : AllocPolicy) (moved : α → α) (blank : α)
    (calls : List (Call ι α)) :
    (∃ tr, Life policy moved blank calls tr) ∧ ∀ tr, Life policy moved blank calls tr →
      (FreedOnce tr ↔ policy = .newOnly ∨ spareNodes calls = 0) := by
  constructor
  · obtain ⟨tr, s, h⟩ := exists_calls policy moved blank calls
    obtain ⟨run, quiet, -⟩ := h.leave
    have inv := (Inv.of_run (fun _ _ _ h => h) run).1
    refine ⟨_, tr, s, (history tr).order.length,
      (history tr).order.drop (history tr).taken.length, h, ?_, rfl⟩
    rw [inv.destroy quiet, if_pos (Nat.le_add_left _ _)]
  · rintro _ ⟨tr, s, fuel, nodes, h, hdestroy, rfl⟩
    obtain ⟨run, quiet, tally⟩ := h.leave
    have inv := (Inv.of_run (fun _ _ _ h => h) run).1
    have acc := Accounted.of_run (fun _ _ _ h => h) run
    rw [inv.destroy quiet] at hdestroy
    split at hdestroy <;> cases hdestroy
    rw [acc.freed_iff inv quiet]
    have hsettled := inv.consumer
    rw [quiet.consumer] at hsettled
    cases policy with
    | newOnly => simp [hsettled.2 rfl]
    | buffered =>
      have hspare := tally.spare rfl
      have hcalls : (calls.foldl Tally.call ⟨0, 0⟩).spare = spareNodes calls := rfl
      constructor
      · intro heq
        exact .inr (by omega)
      · rintro (hpolicy | hnone)
        · cases hpolicy
        · omega

/-- **A leak.** One value goes through the queue: the constructor's node, which it leaves before
    `m_tail`, is never deleted. -/
theorem not_freedOnce : ∃ tr,
    Life (ι := Unit) (α := Nat) .buffered id 0 [.enqueue () 5, .tryDequeue] tr ∧
      allocated tr = [0, 1] ∧ deleted tr = [1] ∧ ¬ FreedOnce tr := by
  have hinit : Calls (ι := Unit) .buffered (id : Nat → Nat) 0 [] _ _ := .start
  have hput := hinit.snoc (.enqueue () 5) 5 (by exact rfl) (by exact rfl)
  have htaken := hput.snoc .tryDequeue 4 (by exact rfl) (by exact rfl)
  refine ⟨_, ⟨_, _, 1, [1], htaken, rfl, rfl⟩, rfl, rfl, fun h => ?_⟩
  exact absurd (h 0 (by decide)) (by decide)

end HopeThreading.MpscQueue
