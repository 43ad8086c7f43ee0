import Mathlib.Data.List.Basic
import Mathlib.Data.List.Infix

namespace Transition

/-!
# One sender, many receivers

A broadcast hands every message to every receiver that exists when the message is sent.  The
events of a run are the messages sent, the creations of receivers, and what each of them
receives.  `Follows tr t first k` says that receiver `t` came when `first` messages had been
sent and has by now received those from there up to the `k`-th; the rules say how that moves
along with each event.
-/

/-- What happens in a broadcast. -/
inductive BroadcastEvent (ι μ : Type*)
  | sent (m : μ)
  | created (t : ι)
  | received (t : ι) (m : μ)
  /-- Receiver `t` was told that there is no message. -/
  | refused (t : ι)

namespace Broadcast

variable {ι μ : Type*}

/-- The receiver an event is about. -/
def receiver : BroadcastEvent ι μ → Option ι
  | .sent _ => none
  | .created t | .received t _ | .refused t => some t

/-- The messages sent so far. -/
def sent (tr : List (BroadcastEvent ι μ)) : List μ :=
  tr.filterMap fun
    | .sent m => some m
    | _ => none

variable [DecidableEq ι]

/-- What receiver `t` has received. -/
def received (t : ι) (tr : List (BroadcastEvent ι μ)) : List μ :=
  tr.filterMap fun
    | .received u m => if u = t then some m else none
    | _ => none

/-- The messages sent since receiver `t` was created. -/
def since (t : ι) (tr : List (BroadcastEvent ι μ)) : List μ :=
  tr.foldl (fun ms e => match e with
    | .sent m => ms ++ [m]
    | .created u => if u = t then [] else ms
    | _ => ms) []

/-- Receiver `t` was created after `first` messages and is at message `k`. -/
structure Follows (tr : List (BroadcastEvent ι μ)) (t : ι) (first k : Nat) : Prop where
  le : first ≤ k
  le_sent : k ≤ (sent tr).length
  since_eq : since t tr = (sent tr).drop first
  received_eq : received t tr = ((sent tr).take k).drop first

section

variable {tr : List (BroadcastEvent ι μ)} {t u : ι} {m : μ} {first k : Nat}
  {e : BroadcastEvent ι μ}

omit [DecidableEq ι] in
/-- A message that is sent is the last one of those sent. -/
theorem sent_snoc_sent : sent (tr ++ [BroadcastEvent.sent m]) = sent tr ++ [m] :=
  List.filterMap_append

omit [DecidableEq ι] in
/-- Nothing is sent with an event of a receiver. -/
theorem sent_snoc (he : receiver e = some u) : sent (tr ++ [e]) = sent tr := by
  cases e with
  | sent m => exact absurd he (by simp [receiver])
  | _ => exact List.filterMap_append.trans (List.append_nil _)

/-- A message that a receiver takes is the last one it has. -/
theorem received_snoc_received :
    received t (tr ++ [BroadcastEvent.received t m]) = received t tr ++ [m] := by
  simp [received]

/-- What another receiver does. -/
theorem received_snoc_of_ne (he : receiver e ≠ some t) :
    received t (tr ++ [e]) = received t tr := by
  rw [received, List.filterMap_append]
  cases e with
  | received u m =>
    have hne : u ≠ t := fun h => he (congrArg some h)
    simp [hne, received]
  | _ => exact List.append_nil _

/-- A receiver that comes later changes nothing for those that are there. -/
theorem received_snoc_created : received t (tr ++ [BroadcastEvent.created u]) = received t tr :=
  List.filterMap_append.trans (List.append_nil _)

/-- An attempt that finds nothing hands out nothing. -/
theorem received_snoc_refused : received t (tr ++ [BroadcastEvent.refused u]) = received t tr :=
  List.filterMap_append.trans (List.append_nil _)

/-- Every receiver that is there has the new message to come. -/
theorem since_snoc_sent : since t (tr ++ [BroadcastEvent.sent m]) = since t tr ++ [m] := by
  rw [since, List.foldl_append]
  rfl

/-- What was sent since a receiver came does not depend on who takes it. -/
theorem since_snoc_received : since t (tr ++ [BroadcastEvent.received u m]) = since t tr := by
  rw [since, List.foldl_append]
  rfl

/-- What was sent since a receiver came does not depend on who finds nothing. -/
theorem since_snoc_refused : since t (tr ++ [BroadcastEvent.refused u]) = since t tr := by
  rw [since, List.foldl_append]
  rfl

/-- Nothing was sent since a receiver was created. -/
theorem since_snoc_created : since t (tr ++ [BroadcastEvent.created t]) = [] := by
  rw [since, List.foldl_append]
  exact if_pos rfl

/-- What another receiver does leaves the messages of this one alone. -/
theorem since_snoc_of_ne (he : receiver e = some u) (hne : u ≠ t) :
    since t (tr ++ [e]) = since t tr := by
  rw [since, List.foldl_append]
  cases e with
  | sent m => exact absurd he (by simp [receiver])
  | created v =>
    obtain rfl : v = u := Option.some.inj he
    exact if_neg hne
  | _ => rfl

/-! ### The rules -/

/-- A receiver that comes now follows from the last message on. -/
theorem Follows.created (hnone : received t tr = []) :
    Follows (tr ++ [BroadcastEvent.created t]) t (sent tr).length (sent tr).length := by
  have hsent : sent (tr ++ [BroadcastEvent.created t]) = sent tr := sent_snoc (u := t) rfl
  refine ⟨le_rfl, hsent ▸ le_rfl, ?_, ?_⟩
  · rw [hsent, List.drop_length, since_snoc_created]
  · rw [hsent, received_snoc_created, hnone, List.take_length, List.drop_length]

/-- A message is sent. -/
theorem Follows.send (h : Follows tr t first k) (m : μ) :
    Follows (tr ++ [BroadcastEvent.sent m]) t first k := by
  refine ⟨h.le, ?_, ?_, ?_⟩
  · rw [sent_snoc_sent, List.length_append]
    exact Nat.le_add_right_of_le h.le_sent
  · rw [sent_snoc_sent, List.drop_append_of_le_length (h.le.trans h.le_sent), ← h.since_eq,
      since_snoc_sent]
  · rw [sent_snoc_sent, List.take_append_of_le_length h.le_sent, ← h.received_eq]
    exact received_snoc_of_ne (by simp [receiver])

/-- The receiver gets its next message. -/
theorem Follows.receive (h : Follows tr t first k) (hm : (sent tr)[k]? = some m) :
    Follows (tr ++ [BroadcastEvent.received t m]) t first (k + 1) := by
  have hsent : sent (tr ++ [BroadcastEvent.received t m]) = sent tr := sent_snoc (u := t) rfl
  refine ⟨Nat.le_succ_of_le h.le, ?_, ?_, ?_⟩
  · rw [hsent]
    exact (List.getElem?_eq_some_iff.mp hm).1
  · rw [hsent, ← h.since_eq, since_snoc_received]
  · have hlen : first ≤ ((sent tr).take k).length := by
      rw [List.length_take, Nat.min_eq_left h.le_sent]
      exact h.le
    rw [hsent, received_snoc_received, h.received_eq, List.take_add_one, hm, Option.toList_some,
      List.drop_append_of_le_length hlen]

/-- The receiver is told that there is nothing. -/
theorem Follows.refuse (h : Follows tr t first k) :
    Follows (tr ++ [BroadcastEvent.refused t]) t first k := by
  have hsent : sent (tr ++ [BroadcastEvent.refused t]) = sent tr := sent_snoc (u := t) rfl
  refine ⟨h.le, hsent ▸ h.le_sent, ?_, ?_⟩
  · rw [hsent, ← h.since_eq, since_snoc_refused]
  · rw [hsent, ← h.received_eq, received_snoc_refused]

/-- Something happens at another receiver. -/
theorem Follows.other (h : Follows tr t first k) (he : receiver e = some u) (hne : u ≠ t) :
    Follows (tr ++ [e]) t first k := by
  have hsent : sent (tr ++ [e]) = sent tr := sent_snoc he
  refine ⟨h.le, hsent ▸ h.le_sent, ?_, ?_⟩
  · rw [hsent, ← h.since_eq]
    exact since_snoc_of_ne he hne
  · rw [hsent, ← h.received_eq]
    exact received_snoc_of_ne fun heq => hne (Option.some.inj (he.symm.trans heq))

/-- **Delivery.** What a receiver has is the beginning of what was sent since it came … -/
theorem Follows.received_prefix (h : Follows tr t first k) : received t tr <+: since t tr := by
  rw [h.since_eq, h.received_eq, List.drop_take]
  exact List.take_prefix _ _

/-- … and at the last message it is all of it. -/
theorem Follows.received_eq_since (h : Follows tr t first k) (hk : k = (sent tr).length) :
    received t tr = since t tr := by
  rw [h.since_eq, h.received_eq, hk, List.take_length]

end

end Broadcast

end Transition
