import HopeThreading.Runtime.AsyncWorker
import HopeThreading.Transition.Places
import HopeThreading.Transition.Threads
import Mathlib.Data.Fintype.Basic

namespace HopeThreading.AsyncWorker

open Transition

/-!
# `async_worker` — wake-ups

The worker clears `m_work_added` after it has found the queue empty.  When at that store nothing
is there to do, or a call that has brought something has still to set the flag, then the worker
is never left blocked over it (`awake_of_run`).  But a call may also come and return between the
two: its flag is wiped out, and its `notify_one` reaches nobody (`stranded`).
-/

variable {κ α : Type*}

/-! ### The property -/

/-- The item of the call a thread is in. -/
def Adder.ticket : Adder α → Option Nat
  | .exchangeHead t _ => some t
  | .storeLink t => some t
  | .storeAdded t => some t
  | .notify t => some t
  | .idle => none

/-- The item a thread has put into the queue without setting the flag yet. -/
def Adder.unflagged : Adder α → Option Nat
  | .storeAdded t => some t
  | _ => none

/-- The item a thread has put into the queue without the `notify_one` yet. -/
def Adder.pending : Adder α → Option Nat
  | .storeAdded t => some t
  | .notify t => some t
  | _ => none

/-- The stopping thread has still to set the flag. -/
def Stopper.unflagged : Stopper → Bool
  | .storeAdded => true
  | _ => false

/-- The stopping thread has still to notify. -/
def Stopper.pending : Stopper → Bool
  | .storeAdded | .notify => true
  | _ => false

/-- The worker waits for a notification. -/
def Worker.isBlocked : Worker α → Bool
  | .blocked => true
  | _ => false

/-- There is a completely enqueued item, or the worker has to stop. -/
def Wanted (s : State κ α) : Prop :=
  (∃ e ∈ s.queue, e.linked = true) ∨ s.stopRequested = true

/-- One of the items in the queue is the one that `key` says of one of the adding threads. -/
def Brought (key : Adder α → Option Nat) (s : State κ α) : Prop :=
  ∃ c, ∃ e ∈ s.queue, key (s.adders c) = some e.ticket

/-- A call that has brought one of the items in the queue, or the one that has requested the
    stop, is still before its store to the flag. -/
def Unflagged (s : State κ α) : Prop :=
  Brought Adder.unflagged s ∨ s.stopper.unflagged = true

/-- Such a call is still before its `notify_one`. -/
def Pending (s : State κ α) : Prop :=
  Brought Adder.pending s ∨ s.stopper.pending = true

/-- Blocked, with no notification to follow. -/
def Asleep (s : State κ α) : Prop := s.worker.isBlocked = true ∧ s.notified = false

/-- The worker does not sleep over what it is wanted for. -/
def NoLostWakeup (s : State κ α) : Prop := Asleep s → Wanted s → Pending s

/-- The worker clears the flag only when it is not wanted, or when the flag is to be set for it. -/
def InTime (s : State κ α) : Action κ α → Prop
  | .worker =>
    match s.worker with
    | .storeFalse => Wanted s → Unflagged s
    | _ => True
  | _ => True

/-! ### The invariant -/

/-- Between the clearing of the flag and the end of the wait. -/
def Worker.waiting : Worker α → Bool
  | .wait | .blocked => true
  | _ => false

/-- When the waiting worker is wanted, its flag is to be set, or is set; and then the worker is
    notified, or is to be notified, if it is blocked. -/
def Awake (s : State κ α) : Prop :=
  s.worker.waiting = true → Wanted s →
    Unflagged s ∨
      (s.workAdded = true ∧ (s.worker.isBlocked = true → s.notified = true ∨ Pending s))

/-- The invariant: every item that is not linked is in the queue, and the worker will be woken
    when it is wanted. -/
structure Inv (s : State κ α) : Prop where
  exclusive : Exclusive Adder.ticket s.adders
  issued : ∀ c t, (s.adders c).ticket = some t → t < s.issued
  /-- An item that is not linked yet is in the queue. -/
  reserved : ∀ c t, s.adders c = .storeLink t → ∃ e ∈ s.queue, e.ticket = t ∧ e.linked = false
  awake : Awake s

section

variable {s s' : State κ α} {key key' : Adder α → Option Nat}

/-- A call of which less is left may be one of more kinds. -/
theorem Brought.mono (h : Brought key s)
    (hadders : ∀ c t, key (s.adders c) = some t → key' (s'.adders c) = some t)
    (hqueue : ∀ e ∈ s.queue, ∃ e' ∈ s'.queue, e'.ticket = e.ticket) : Brought key' s' := by
  obtain ⟨c, e, he, hkey⟩ := h
  obtain ⟨e', he', hticket⟩ := hqueue e he
  exact ⟨c, e', he', by rw [hticket]; exact hadders c _ hkey⟩

/-- A call that has still to set the flag has still to notify. -/
theorem Unflagged.pending (h : Unflagged s) : Pending s := by
  rcases h with hb | hs
  · refine .inl (hb.mono (fun c t hc => ?_) fun e he => ⟨e, he, rfl⟩)
    cases hl : s.adders c with
    | storeAdded u => rw [hl] at hc; exact hc
    | _ => rw [hl] at hc; exact absurd hc (by simp [Adder.unflagged])
  · refine .inr ?_
    cases hl : s.stopper with
    | storeAdded => rfl
    | _ => rw [hl] at hs; exact absurd hs (by simp [Stopper.unflagged])

/-- A worker that will be woken when it is wanted is not left waiting. -/
theorem Awake.noLostWakeup (h : Awake s) : NoLostWakeup s := by
  rintro ⟨hblocked, hquiet⟩ hwanted
  have hwaiting : s.worker.waiting = true := by
    cases hw : s.worker with
    | blocked => rfl
    | _ => rw [hw] at hblocked; exact absurd hblocked (by simp [Worker.isBlocked])
  rcases h hwaiting hwanted with hu | ⟨-, hp⟩
  · exact hu.pending
  · rcases hp hblocked with hn | hp
    · rw [hquiet] at hn
      exact absurd hn (by simp)
    · exact hp

/-- A step that changes neither the worker nor the flag, and only brings things closer. -/
theorem Awake.quiet (h : Awake s) (hworker : s'.worker = s.worker)
    (hflag : s'.workAdded = s.workAdded) (hnotified : s'.notified = s.notified)
    (hwanted : Wanted s' → Wanted s) (hunflagged : Unflagged s → Unflagged s')
    (hpending : Pending s → Pending s') : Awake s' := by
  intro hwaiting hwanted'
  rw [hworker] at hwaiting ⊢
  rw [hflag, hnotified]
  refine (h hwaiting (hwanted hwanted')).imp hunflagged fun ⟨hset, hp⟩ => ⟨hset, fun hb => ?_⟩
  exact (hp hb).imp_right hpending

/-- The flag is set by a call that has still to notify. -/
theorem Awake.setFlag (h : Awake s) (hworker : s'.worker = s.worker) (hflag : s'.workAdded = true)
    (hnotified : s'.notified = s.notified) (hwanted : Wanted s' → Wanted s)
    (hpending : Pending s → Pending s') : Awake s' := by
  intro hwaiting hwanted'
  rw [hworker] at hwaiting ⊢
  rw [hnotified]
  refine .inr ⟨hflag, fun hb => ?_⟩
  rcases h hwaiting (hwanted hwanted') with hu | ⟨-, hp⟩
  · exact .inr (hpending hu.pending)
  · exact (hp hb).imp_right hpending

/-- A notification. -/
theorem Awake.notifyOne (h : Awake s) (hworker : s'.worker = s.worker)
    (hflag : s'.workAdded = s.workAdded) (hwanted : Wanted s' → Wanted s)
    (hunflagged : Unflagged s → Unflagged s') : Awake s'.notifyOne := by
  intro hwaiting hwanted'
  cases hw : s'.worker with
  | blocked =>
    have hs : s'.notifyOne = { s' with notified := true } := by
      unfold State.notifyOne
      rw [hw]
    rw [hs] at hwaiting hwanted' ⊢
    change s'.worker.waiting = true at hwaiting
    rw [hworker] at hwaiting
    -- a blocked worker keeps the notification
    refine (h hwaiting (hwanted hwanted')).imp hunflagged fun ⟨hset, _⟩ => ?_
    exact ⟨hflag.trans hset, fun _ => .inl rfl⟩
  -- a worker that is about to wait loses the notification, but has still to look at the flag
  | wait =>
    have hs : s'.notifyOne = s' := by
      unfold State.notifyOne
      rw [hw]
    rw [hs] at hwaiting hwanted' ⊢
    rw [hworker] at hwaiting
    refine (h hwaiting (hwanted hwanted')).imp hunflagged fun ⟨hset, _⟩ => ?_
    exact ⟨hflag.trans hset, fun hb => by rw [hw] at hb; exact absurd hb (by simp [Worker.isBlocked])⟩
  | _ =>
    unfold State.notifyOne at hwaiting
    rw [hw] at hwaiting
    simp only at hwaiting
    rw [hw] at hwaiting
    exact absurd hwaiting (by simp [Worker.waiting])

/-! ### The steps -/

/-- `notify_one` leaves the calls of `add` alone. -/
@[simp]
theorem notifyOne_adders : s.notifyOne.adders = s.adders := by
  unfold State.notifyOne
  split <;> rfl

/-- `notify_one` leaves the queue alone. -/
@[simp]
theorem notifyOne_queue : s.notifyOne.queue = s.queue := by
  unfold State.notifyOne
  split <;> rfl

/-- `notify_one` issues no ticket. -/
@[simp]
theorem notifyOne_issued : s.notifyOne.issued = s.issued := by
  unfold State.notifyOne
  split <;> rfl

/-- What a key says of all adding threads after a step of one of them. -/
theorem key_setAdder [DecidableEq κ] {c : κ} {l : Adder α}
    (hkey : ∀ t, key (s.adders c) = some t → key' l = some t)
    (hall : ∀ d t, key (s.adders d) = some t → key' (s.adders d) = some t) (d : κ) (t : Nat)
    (hd : key (s.adders d) = some t) :
    key' (Function.update s.adders c l d) = some t := by
  by_cases hdc : d = c
  · subst hdc
    rw [Function.update_self]
    exact hkey t hd
  · rw [Function.update_of_ne hdc]
    exact hall d t hd

/-- The tickets of the adding threads after a step of one of them. -/
theorem Inv.tickets [DecidableEq κ] (inv : Inv s) {c : κ} {l : Adder α}
    (hl : ∀ t, l.ticket = some t → (s.adders c).ticket = some t) :
    Exclusive Adder.ticket (Function.update s.adders c l) ∧
      ∀ d t, (Function.update s.adders c l d).ticket = some t → t < s.issued := by
  refine ⟨inv.exclusive.take fun t ht d hdc hd => hdc (inv.exclusive hd (hl t ht)), ?_⟩
  intro d t hd
  rcases update_cases (fun y : Adder α => y.ticket = some t) hd with ⟨rfl, h⟩ | ⟨-, h⟩
  · exact inv.issued d t (hl t h)
  · exact inv.issued d t h

/-- The items of the other threads that are not linked yet are in the queue as before. -/
theorem Inv.reserved_of [DecidableEq κ] (inv : Inv s) {c : κ} {l : Adder α}
    (hl : ∀ t, l ≠ .storeLink t) (d : κ) (t : Nat)
    (hd : Function.update s.adders c l d = .storeLink t) :
    ∃ e ∈ s.queue, e.ticket = t ∧ e.linked = false := by
  rcases update_cases (fun y : Adder α => y = .storeLink t) hd with ⟨-, h⟩ | ⟨-, h⟩
  · exact absurd h (hl t)
  · exact inv.reserved d t h

/-- **A step of an adding thread.** -/
theorem Inv.add_step [DecidableEq κ] (inv : Inv s) {c : κ} {es : List (Event α)}
    (h : add s c = some (s', es)) : Inv s' := by
  unfold add at h
  split at h
  case h_1 => exact absurd h (by simp)
  case h_2 t v hc =>
    cases h
    obtain ⟨hexcl, hissued⟩ := inv.tickets (c := c) (l := .storeLink t) fun u hu => by
      rw [hc]; exact hu
    have hqueue : ∀ e ∈ s.queue, ∃ e' ∈ s.queue ++ [{ ticket := t, value := v, linked := false }],
        e'.ticket = e.ticket := fun e he => ⟨e, List.mem_append_left _ he, rfl⟩
    refine ⟨hexcl, hissued, fun d u hd => ?_, inv.awake.quiet rfl rfl rfl ?_ ?_ ?_⟩
    · rcases update_cases (fun y : Adder α => y = .storeLink u) hd with ⟨-, h⟩ | ⟨-, h⟩
      · cases h
        exact ⟨_, List.mem_append_right _ List.mem_cons_self, rfl, rfl⟩
      · obtain ⟨e, he, hticket, hlinked⟩ := inv.reserved d u h
        exact ⟨e, List.mem_append_left _ he, hticket, hlinked⟩
    · -- the new item is not linked
      refine Or.imp_left ?_
      rintro ⟨e, he, hlinked⟩
      rcases List.mem_append.mp he with he | he
      · exact ⟨e, he, hlinked⟩
      · rw [List.mem_singleton.mp he] at hlinked
        exact absurd hlinked (by simp)
    · exact Or.imp_left fun hb => hb.mono
        (key_setAdder (by rw [hc]; simp [Adder.unflagged]) fun _ _ hd => hd) hqueue
    · exact Or.imp_left fun hb => hb.mono
        (key_setAdder (by rw [hc]; simp [Adder.pending]) fun _ _ hd => hd) hqueue
  case h_3 t hc =>
    cases h
    obtain ⟨hexcl, hissued⟩ := inv.tickets (c := c) (l := .storeAdded t) fun u hu => by
      rw [hc]; exact hu
    obtain ⟨e, he, hticket, -⟩ := inv.reserved c t hc
    refine ⟨hexcl, hissued, fun d u hd => ?_, fun _ _ => .inl (.inl ⟨c, _,
      List.mem_map_of_mem he, ?_⟩)⟩
    · rcases update_cases (fun y : Adder α => y = .storeLink u) hd with ⟨-, h⟩ | ⟨hdc, h⟩
      · exact absurd h (by simp)
      · -- another item than the linked one
        obtain ⟨e', he', hticket', hlinked'⟩ := inv.reserved d u h
        have hne : e'.ticket ≠ t := by
          rintro rfl
          exact hdc (inv.exclusive (k := e'.ticket) (by rw [h, hticket']; rfl) (by rw [hc]; rfl))
        refine ⟨e', ?_, hticket', hlinked'⟩
        have hmem : (if e'.ticket = t then { e' with linked := true } else e') ∈ link t s.queue :=
          List.mem_map_of_mem he'
        rwa [if_neg hne] at hmem
    · show (Function.update s.adders c _ c).unflagged = _
      rw [Function.update_self, if_pos hticket]
      exact congrArg some hticket.symm
  case h_4 t hc =>
    cases h
    obtain ⟨hexcl, hissued⟩ := inv.tickets (c := c) (l := .notify t) fun u hu => by
      rw [hc]; exact hu
    refine ⟨hexcl, hissued, inv.reserved_of (by simp), inv.awake.setFlag rfl rfl rfl id ?_⟩
    -- the call has still to notify
    exact Or.imp_left fun hb => hb.mono
      (key_setAdder (by rw [hc]; exact fun _ hu => hu) fun _ _ hd => hd) fun e he => ⟨e, he, rfl⟩
  case h_5 t hc =>
    cases h
    obtain ⟨hexcl, hissued⟩ := inv.tickets (c := c) (l := .idle) fun u hu => by
      exact absurd hu (by simp [Adder.ticket])
    have hawake : Awake (s.setAdder c .idle).notifyOne := by
      refine inv.awake.notifyOne rfl rfl id (Or.imp_left fun hb => hb.mono
        (key_setAdder ?_ fun _ _ hd => hd) fun e he => ⟨e, he, rfl⟩)
      rw [hc]
      simp [Adder.unflagged]
    refine ⟨?_, ?_, ?_, hawake⟩
    · rw [notifyOne_adders]
      exact hexcl
    · rw [notifyOne_adders, notifyOne_issued]
      exact hissued
    · rw [notifyOne_adders, notifyOne_queue]
      exact inv.reserved_of (by simp)

/-- **A step of the stopping thread.** -/
theorem Inv.stop_step (inv : Inv s) {es : List (Event α)} (h : stop s = some (s', es)) :
    Inv s' := by
  unfold stop at h
  split at h
  case h_1 => exact absurd h (by simp)
  case h_2 => cases h; exact { inv with awake := fun _ _ => .inl (.inr rfl) }
  case h_3 =>
    cases h
    exact { inv with awake := inv.awake.setFlag rfl rfl rfl id fun hp => hp.imp_right fun _ => rfl }
  case h_4 hstop =>
    cases h
    have hawake : Awake { s with stopper := .join }.notifyOne := by
      refine inv.awake.notifyOne rfl rfl id (Or.imp_right fun hs => ?_)
      rw [hstop] at hs
      exact absurd hs (by simp [Stopper.unflagged])
    refine ⟨?_, ?_, ?_, hawake⟩
    · rw [notifyOne_adders]
      exact inv.exclusive
    · rw [notifyOne_adders, notifyOne_issued]
      exact inv.issued
    · rw [notifyOne_adders, notifyOne_queue]
      exact inv.reserved
  case h_5 =>
    split at h
    · rename_i hworker
      cases h
      refine { inv with awake := fun hwaiting => absurd hwaiting ?_ }
      show s.worker.waiting ≠ true
      rw [hworker]
      simp [Worker.waiting]
    · exact absurd h (by simp)

/-- **A step of the worker.** -/
theorem Inv.run_step [DecidableEq κ] (inv : Inv s) (hok : InTime s .worker)
    {es : List (Event α)} (h : run s = some (s', es)) : Inv s' := by
  unfold run at h
  split at h
  case h_1 =>
    split at h <;> cases h <;>
      exact { inv with awake := fun hwaiting => absurd hwaiting (by simp [Worker.waiting]) }
  case h_2 =>
    split at h
    · rename_i v rest hdeq
      cases h
      refine { inv with
        reserved := fun c t hc => ?_
        awake := fun hwaiting => absurd hwaiting (by simp [Worker.waiting]) }
      -- the item that was taken was linked
      obtain ⟨e, he, hticket, hlinked⟩ := inv.reserved c t hc
      refine ⟨e, ?_, hticket, hlinked⟩
      cases hqueue : s.queue with
      | nil =>
        rw [hqueue] at he
        exact absurd he List.not_mem_nil
      | cons e' rest' =>
        rw [hqueue] at hdeq he
        simp only [dequeue] at hdeq
        split at hdeq <;> cases hdeq
        rename_i hlinked'
        rcases List.mem_cons.mp he with rfl | he
        · rw [hlinked] at hlinked'
          exact absurd hlinked' (by simp)
        · exact he
    · cases h
      exact { inv with awake := fun hwaiting => absurd hwaiting (by simp [Worker.waiting]) }
  case h_3 =>
    cases h
    exact { inv with awake := fun hwaiting => absurd hwaiting (by simp [Worker.waiting]) }
  -- the flag is cleared: whoever wants the worker has still to set it
  case h_4 hworker =>
    cases h
    have hclear : Wanted s → Unflagged s := by
      unfold InTime at hok
      simp only [hworker] at hok
      exact hok
    exact { inv with awake := fun _ hwanted => .inl (hclear hwanted) }
  -- the test before the wait: the worker waits only with the flag clear
  case h_5 hworker =>
    split at h
    · cases h
      exact { inv with awake := fun hwaiting => absurd hwaiting (by simp [Worker.waiting]) }
    · rename_i hflag
      cases h
      refine { inv with awake := fun _ hwanted => .inl ?_ }
      exact (inv.awake (by rw [hworker]; rfl) hwanted).resolve_right fun hset => hflag hset.1
  -- a wake-up: the worker goes back to sleep only with the flag clear
  case h_6 hworker =>
    split at h
    · split at h
      · cases h
        exact { inv with awake := fun hwaiting => absurd hwaiting (by simp [Worker.waiting]) }
      · rename_i hflag
        cases h
        refine { inv with awake := fun hwaiting hwanted => .inl ?_ }
        exact (inv.awake hwaiting hwanted).resolve_right fun hset => hflag hset.1
    · exact absurd h (by simp)
  case h_7 => exact absurd h (by simp)

/-- **One step.** -/
theorem Inv.step [DecidableEq κ] (inv : Inv s) {a : Action κ α} (hok : InTime s a)
    {es : List (Event α)} (h : next s a = some (s', es)) : Inv s' := by
  cases a with
  | add c v =>
    simp only [next] at h
    split at h
    · rename_i hc
      cases h
      -- the caller has had no item, so nothing about it is lost
      have hidle : ∀ u, (s.adders c).ticket ≠ some u := fun u hu => by
        rw [hc] at hu
        exact absurd hu (by simp [Adder.ticket])
      have hawake : Awake (s.setAdder c (.exchangeHead s.issued v)) := by
        refine inv.awake.quiet rfl rfl rfl id
          (Or.imp_left fun hb => hb.mono (key_setAdder ?_ fun _ _ hd => hd) fun e he => ⟨e, he, rfl⟩)
          (Or.imp_left fun hb => hb.mono (key_setAdder ?_ fun _ _ hd => hd) fun e he => ⟨e, he, rfl⟩)
        · rw [hc]
          simp [Adder.unflagged]
        · rw [hc]
          simp [Adder.pending]
      refine
        { exclusive := inv.exclusive.take fun t ht d _ hd => ?_
          issued := fun d t hd => ?_
          reserved := inv.reserved_of (by simp)
          awake := hawake }
      · -- the number of the call is new
        obtain rfl := Option.some.inj ht
        exact absurd (inv.issued d _ hd) (Nat.lt_irrefl _)
      · rcases update_cases (fun y : Adder α => y.ticket = some t) hd with ⟨-, h⟩ | ⟨-, h⟩
        · obtain rfl := Option.some.inj h
          exact Nat.lt_succ_self _
        · exact Nat.lt_succ_of_lt (inv.issued d t h)
    · exact absurd h (by simp)
  | stop =>
    simp only [next] at h
    split at h
    · rename_i hstop
      cases h
      have hawake : Awake { s with stopper := .requestStop } := by
        refine inv.awake.quiet rfl rfl rfl id (Or.imp_right fun hs => ?_)
          (Or.imp_right fun hs => ?_)
        · rw [hstop] at hs
          exact absurd hs (by simp [Stopper.unflagged])
        · rw [hstop] at hs
          exact absurd hs (by simp [Stopper.pending])
      exact { inv with awake := hawake }
    · exact absurd h (by simp)
  | adder c => exact inv.add_step h
  | stopper => exact inv.stop_step h
  | worker => exact inv.run_step hok h

/-- **No lost wake-up**, for any number of adding threads: in every run in which the worker clears
    its flag only when it is not wanted or the flag is to be set for it. -/
theorem awake_of_run [DecidableEq κ] {tr : List (Event α)}
    (run : (machine (κ := κ) (α := α)).RunIf InTime tr s) : NoLostWakeup s := by
  have inv : Inv s := by
    refine run.invariant (I := fun _ s => Inv s) ?_ fun tr es s s' a _ h hok hstep => ?_
    · exact
        { exclusive := fun c d t hc => absurd hc (by simp [machine, Adder.ticket])
          issued := fun c t hc => absurd hc (by simp [machine, Adder.ticket])
          reserved := fun c t hc => absurd hc (by simp [machine])
          awake := fun hwaiting => absurd hwaiting (by simp [machine, Worker.waiting]) }
    · exact h.step hok hstep
  exact inv.awake.noLostWakeup

end

/-! ### Runs -/

instance (s : State κ α) : Decidable (Wanted s) :=
  inferInstanceAs (Decidable (_ ∨ _))

instance (s : State κ α) : Decidable (Asleep s) :=
  inferInstanceAs (Decidable (_ ∧ _))

instance [Fintype κ] (key : Adder α → Option Nat) (s : State κ α) : Decidable (Brought key s) :=
  inferInstanceAs (Decidable (∃ c, ∃ e ∈ s.queue, key (s.adders c) = some e.ticket))

instance [Fintype κ] (s : State κ α) : Decidable (Unflagged s) :=
  inferInstanceAs (Decidable (_ ∨ _))

instance [Fintype κ] (s : State κ α) : Decidable (Pending s) :=
  inferInstanceAs (Decidable (_ ∨ _))

instance [Fintype κ] (s : State κ α) : Decidable (NoLostWakeup s) :=
  inferInstanceAs (Decidable (_ → _ → _))

instance [Fintype κ] (s : State κ α) (a : Action κ α) : Decidable (InTime s a) := by
  unfold InTime
  split
  · split <;> infer_instance
  · infer_instance

/-- The worker finds the queue empty, and clears its flag next. -/
def lookForWork : List (Action Unit Nat) := [.worker, .worker]

/-- A whole call of `add`. -/
def addCall (v : Nat) : List (Action Unit Nat) := .add () v :: List.replicate 4 (.adder ())

/-- The worker is blocked when its item comes; it processes it and is asleep again. -/
theorem awake_of_run_one : ∃ tr s, (machine (κ := Unit) (α := Nat)).RunIf InTime tr s ∧
    processed tr = [7] ∧ Asleep s ∧ NoLostWakeup s := by
  obtain ⟨tr, s, run, hproc, hasleep⟩ := Machine.exists_runIf
    (M := machine (κ := Unit) (α := Nat)) (A := InTime)
    (P := fun tr s => processed tr = [7] ∧ Asleep s)
    (lookForWork ++ [Action.worker, Action.worker] ++ addCall 7 ++ List.replicate 7 Action.worker)
    (by decide +kernel)
  exact ⟨tr, s, run, hproc, hasleep, awake_of_run run⟩

/-- **Lost wake-ups.** A call comes after the worker has found its queue empty and returns before
    it clears its flag: the worker sleeps over the item of `add`, or over the request of `stop`,
    which then waits for it in its join. -/
theorem stranded :
    (∃ tr s, (machine (κ := Unit) (α := Nat)).Run tr s ∧
      (s.adders () matches .idle) ∧ (s.queue.map Entry.value) = [7] ∧ ¬ NoLostWakeup s) ∧
    ∃ tr s, (machine (κ := Unit) (α := Nat)).Run tr s ∧
      (s.stopper matches .join) ∧ ¬ NoLostWakeup s :=
  ⟨Machine.exists_run (lookForWork ++ addCall 7 ++ [Action.worker, Action.worker])
      (by decide +kernel),
    Machine.exists_run (lookForWork ++ Action.stop :: List.replicate 3 Action.stopper ++
      [Action.worker, Action.worker])
      (by decide +kernel)⟩

end HopeThreading.AsyncWorker
