import HopeThreading.Queue.SpmcMessage
import HopeThreading.Transition.Picks
import HopeThreading.Transition.Sequence

namespace HopeThreading.SpmcBoundedMessageQueue

open Transition Words Broadcast

open SeqLock (Value copyWord)

/-!
# `spmc_bounded_message_queue` — complete calls and slow consumers

Here each call is complete before the next one, and nobody waits for a consumer.  A consumer
that is `d` messages behind reads the newest message whose number differs from its position by
a multiple of `Size`, and moves on by one: it skips messages while it is far behind, and
catches up.  When it has been given the newest message of all while it was more than a lap
behind, its next position belongs to an older one (`received_twice`).  That is the only way
to see messages twice or out of order (`inOrder_iff_fresh`).
-/

variable {ι α : Type*} {n : Nat} {c : PowTwo 64}

/-! ### Complete calls -/

/-- The calls: the writer sends a message, a consumer is created, a consumer reads. -/
inductive Call (ι : Type*) (n : Nat) (α : Type*)
  | tryEnqueue (item : Value n α)
  | createConsumer (t : ι)
  | tryDequeue (t : ι)

/-- The queue, and `m_local_read_position` of the consumers that were created. -/
structure State (ι : Type*) (n : Nat) (α : Type*) where
  shared : Shared n α
  readPos : ι → Option (BitVec 64)

/-- The queue before the first call: nothing is written, and there is no consumer. -/
def State.init (raw : Nat → Value n α) : State ι n α where
  shared := { writerPos := 0#64, buffer := raw }
  readPos _ := none

variable [DecidableEq ι]

/-- A complete call; each consumer is created once. -/
def call (c : PowTwo 64) (s : State ι n α) : Call ι n α → State ι n α × List (Event ι n α)
  | .tryEnqueue item => ({ s with shared := tryEnqueue c s.shared item }, [.sent item])
  | .createConsumer t =>
    match s.readPos t with
    | none => ({ s with readPos := Function.update s.readPos t (some s.shared.writerPos) },
        [.created t])
    | some _ => (s, [])
  | .tryDequeue t =>
    match s.readPos t with
    | none => (s, [])
    | some pos =>
      match tryDequeue c s.shared pos with
      | none => (s, [.refused t])
      | some (m, next) =>
        ({ s with readPos := Function.update s.readPos t (some next) }, [.received t m])

/-- The events of a sequence of calls. -/
def events (c : PowTwo 64) (s : State ι n α) (calls : List (Call ι n α)) : List (Event ι n α) :=
  (answers (call c) s calls).flatten

/-! ### Calls as runs -/

/-- Nobody is inside of a call. -/
def State.config (s : State ι n α) : Config (Option ι) (Shared n α) (Local n α) where
  shared := s.shared
  threads
    | none => .idle
    | some t => match s.readPos t with
      | none => .idle
      | some pos => .ready pos

section

variable {raw : Nat → Value n α} {tr : List (Event ι n α)}
  {cfg : Config (Option ι) (Shared n α) (Local n α)} {item data : Value n α} {pos : BitVec 64}
  {i : Nat} {t : ι}

/-- The rest of a copy into the ring. -/
theorem copyIn_run (run : (program c ι raw).machine.Run tr cfg)
    (hl : cfg.threads none = .copyIn item pos i)
    (hcopied : ∀ w : Fin n, w < i → cfg.shared.buffer (slot c pos) w = item w) :
    (program c ι raw).machine.Run (tr ++ [BroadcastEvent.sent item])
      (cfg.set none { writerPos := pos + 1#64,
                      buffer := Function.update cfg.shared.buffer (slot c pos) item } .idle) := by
  induction hk : n - i generalizing i tr cfg with
  | zero =>
    have hi : ¬ i < n := by omega
    have hall : cfg.shared.buffer (slot c pos) = item := by
      ext1 w
      exact hcopied w (w.isLt.trans_le (by omega))
    refine Program.step run none .step trivial ?_
    show writerStep c cfg.shared (cfg.threads none) = _
    rw [hl, writerStep, dif_neg hi, ← hall, Function.update_eq_self]
  | succ k ih =>
    have hi : i < n := by omega
    have run' := Program.step run none .step trivial
      (s := { writerPos := cfg.shared.writerPos
              buffer := Function.update cfg.shared.buffer (slot c pos)
                (copyWord (cfg.shared.buffer (slot c pos)) item ⟨i, hi⟩) })
      (l := .copyIn item pos (i + 1)) (e := []) (by
        show writerStep c cfg.shared (cfg.threads none) = _
        rw [hl, writerStep, dif_pos hi])
    rw [List.append_nil] at run'
    have hrest := ih run' Config.set_threads_self (fun w hw => by
      refine (congrFun (Function.update_self ..) w).trans ?_
      rw [copyWord]
      by_cases heq : w = ⟨i, hi⟩
      · rw [heq, Function.update_self]
      · rw [Function.update_of_ne heq]
        exact hcopied w (Nat.lt_of_le_of_ne (Nat.le_of_lt_succ hw) fun h => heq (Fin.ext h)))
      (by omega)
    rw [Config.set_set, Config.set_shared, Function.update_idem] at hrest
    exact hrest

/-- The rest of a copy out of the ring. -/
theorem copyOut_run (run : (program c ι raw).machine.Run tr cfg)
    (hl : cfg.threads (some t) = .copyOut pos i data)
    (hcopied : ∀ w : Fin n, w < i → data w = cfg.shared.buffer (slot c pos) w) :
    (program c ι raw).machine.Run
      (tr ++ [BroadcastEvent.received t (cfg.shared.buffer (slot c pos))])
      (cfg.set (some t) cfg.shared (.ready (pos + 1#64))) := by
  induction hk : n - i generalizing i tr cfg data with
  | zero =>
    have hi : ¬ i < n := by omega
    have hall : data = cfg.shared.buffer (slot c pos) := by
      ext1 w
      exact hcopied w (w.isLt.trans_le (by omega))
    refine Program.step run (some t) .step trivial ?_
    show consumerStep c t cfg.shared (cfg.threads (some t)) = _
    rw [hl, consumerStep, dif_neg hi, hall]
  | succ k ih =>
    have hi : i < n := by omega
    have run' := Program.step run (some t) .step trivial (s := cfg.shared)
      (l := .copyOut pos (i + 1) (copyWord data (cfg.shared.buffer (slot c pos)) ⟨i, hi⟩))
      (e := []) (by
        show consumerStep c t cfg.shared (cfg.threads (some t)) = _
        rw [hl, consumerStep, dif_pos hi])
    rw [List.append_nil] at run'
    have hrest := ih run' Config.set_threads_self (fun w hw => by
      show copyWord _ _ _ w = _
      rw [copyWord]
      by_cases heq : w = ⟨i, hi⟩
      · rw [heq, Function.update_self]
        rfl
      · rw [Function.update_of_ne heq]
        exact hcopied w (Nat.lt_of_le_of_ne (Nat.le_of_lt_succ hw) fun h => heq (Fin.ext h)))
      (by omega)
    rw [Config.set_set, Config.set_shared] at hrest
    exact hrest

/-- A consumer that moves on, and nobody else. -/
theorem config_update (s : State ι n α) (t : ι) (next : BitVec 64) :
    s.config.set (some t) s.shared (.ready next) =
      ({ s with readPos := Function.update s.readPos t (some next) } : State ι n α).config := by
  refine congrArg (Config.mk s.shared) (funext fun u => ?_)
  cases u with
  | none => exact Function.update_of_ne (by simp) ..
  | some u =>
    by_cases hu : u = t
    · simp [hu, State.config]
    · rw [Function.update_of_ne fun h => hu (Option.some.inj h)]
      simp [State.config, Function.update_of_ne hu]

/-- The writer is idle before and after a call. -/
theorem config_shared (s : State ι n α) (q : Shared n α) :
    s.config.set none q .idle = ({ s with shared := q } : State ι n α).config := by
  refine congrArg (Config.mk q) (funext fun u => ?_)
  cases u with
  | none => exact Function.update_self ..
  | some u => exact Function.update_of_ne (by simp) ..

/-- **A complete call is a piece of a run.** -/
theorem call_run {s : State ι n α} (run : (program c ι raw).machine.Run tr s.config)
    (a : Call ι n α) :
    (program c ι raw).machine.Run (tr ++ (call c s a).2) (call c s a).1.config := by
  cases a with
  | tryEnqueue item =>
    -- the call, the load of the position, and then the copy word by word
    have run1 := Program.step run none (.tryEnqueue item) trivial (s := s.shared)
      (l := .loadPos item) (e := []) rfl
    have run2 := Program.step run1 none .step trivial (s := s.shared)
      (l := .copyIn item s.shared.writerPos 0) (e := [])
      (by rw [Config.set_threads_self]; rfl)
    rw [List.append_nil, List.append_nil, Config.set_set] at run2
    have run3 := copyIn_run run2 Config.set_threads_self fun w hw => absurd hw (Nat.not_lt_zero _)
    rw [Config.set_set, config_shared] at run3
    exact run3
  | createConsumer t =>
    cases hpos : s.readPos t with
    | some pos =>
      simp only [call, hpos, List.append_nil]
      exact run
    | none =>
      have run1 := Program.step run (some t) .createConsumer trivial (s := s.shared)
        (l := .ready s.shared.writerPos) (e := [.created t]) (by
          show next c s.shared (s.config.threads (some t)) (some t) .createConsumer = _
          simp [State.config, hpos, next])
      rw [config_update] at run1
      simp only [call, hpos]
      exact run1
  | tryDequeue t =>
    cases hpos : s.readPos t with
    | none =>
      simp only [call, hpos, List.append_nil]
      exact run
    | some pos =>
      have hready : s.config.threads (some t) = .ready pos := by simp [State.config, hpos]
      have run1 := Program.step run (some t) (.tryDequeue (s.shared.buffer 0)) trivial
        (s := s.shared) (l := .readWriterPos pos (s.shared.buffer 0)) (e := []) (by
          show next c s.shared (s.config.threads (some t)) (some t)
            (.tryDequeue (s.shared.buffer 0)) = _
          rw [hready]
          rfl)
      rw [List.append_nil] at run1
      by_cases heq : s.shared.writerPos = pos
      -- the load of `m_writer_pos` decides: nothing new, or a copy
      · have run2 := Program.step run1 (some t) .step trivial (s := s.shared) (l := .ready pos)
          (e := [.refused t]) (by
            rw [Config.set_threads_self]
            exact if_pos heq)
        rw [Config.set_set, ← hready] at run2
        simp only [call, hpos, tryDequeue, if_pos heq]
        rw [← Config.set_self (c := s.config) (t := some t)]
        exact run2
      · have run2 := Program.step run1 (some t) .step trivial (s := s.shared)
          (l := .copyOut pos 0 (s.shared.buffer 0)) (e := []) (by
            rw [Config.set_threads_self]
            exact if_neg heq)
        rw [List.append_nil, Config.set_set] at run2
        have run3 := copyOut_run run2 Config.set_threads_self fun w hw =>
          absurd hw (Nat.not_lt_zero _)
        rw [Config.set_set, Config.set_shared, config_update] at run3
        simp only [call, hpos, tryDequeue, if_neg heq]
        exact run3

/-- So a sequence of calls is a run. -/
theorem calls_run {s : State ι n α} (run : (program c ι raw).machine.Run tr s.config)
    (calls : List (Call ι n α)) :
    ∃ s' : State ι n α,
      (program c ι raw).machine.Run (tr ++ events c s calls) s'.config := by
  induction calls generalizing s tr with
  | nil => exact ⟨s, (List.append_nil tr).symm ▸ run⟩
  | cons a rest ih =>
    obtain ⟨s', run'⟩ := ih (call_run run a)
    rw [List.append_assoc] at run'
    exact ⟨s', run'⟩

end

/-! ### What a slow consumer is given -/

/-- The newest of `sent` messages in the slot of position `pos`. -/
def latest (c : PowTwo 64) (pos sent : Nat) : Nat :=
  pos + c.toNat * ((sent - pos - 1) / c.toNat)

/-- The newest message in a slot was sent. -/
theorem latest_lt {pos sent : Nat} (h : pos < sent) : latest c pos sent < sent := by
  have := Nat.mul_div_le (sent - pos - 1) c.toNat
  unfold latest
  omega

/-- The newest message in a slot belongs to this slot. -/
theorem latest_mod (pos sent : Nat) : latest c pos sent % c.toNat = pos % c.toNat := by
  rw [latest, Nat.add_mul_mod_self_left]

/-- The messages of the last lap are the newest ones in their slots. -/
theorem le_latest_add {pos sent : Nat} (h : pos < sent) :
    sent ≤ latest c pos sent + c.toNat := by
  have hdiv := Nat.div_add_mod (sent - pos - 1) c.toNat
  have hmod := c.mod_lt (sent - pos - 1)
  unfold latest
  omega

/-- No message in the slot is newer than the newest. -/
theorem le_latest {pos sent m : Nat} (h : pos + c.toNat * m < sent) :
    pos + c.toNat * m ≤ latest c pos sent := by
  have hle : m ≤ (sent - pos - 1) / c.toNat :=
    (Nat.le_div_iff_mul_le c.toNat_pos).mpr (by rw [Nat.mul_comm]; omega)
  exact Nat.add_le_add_left (Nat.mul_le_mul_left _ hle) _

/-- A consumer that was created after `first` messages, is at `pos` and was given the messages
    with the numbers `got`. -/
structure Cursor where
  first : Nat
  pos : Nat
  got : List Nat

/-- What has been called so far, with positions that do not wrap. -/
structure History (ι : Type*) where
  sent : Nat
  cursors : ι → Option Cursor

/-- Nothing was sent, and there is no consumer. -/
def History.init : History ι where
  sent := 0
  cursors _ := none

/-- A consumer is given nothing when the words of the positions agree. -/
def Cursor.read (c : PowTwo 64) (sent : Nat) (r : Cursor) : Cursor :=
  if (sent - r.pos) % 2 ^ 64 = 0 then r
  else { r with pos := r.pos + 1, got := r.got ++ [latest c r.pos sent] }

/-- Consumer `t` is as `r` says. -/
def History.put (h : History ι) (t : ι) (r : Cursor) : History ι :=
  { h with cursors := Function.update h.cursors t (some r) }

/-- One call, by the numbers of the messages. -/
def History.after (c : PowTwo 64) (h : History ι) : Call ι n α → History ι
  | .tryEnqueue _ => { h with sent := h.sent + 1 }
  | .createConsumer t =>
    match h.cursors t with
    | none => h.put t { first := h.sent, pos := h.sent, got := [] }
    | some _ => h
  | .tryDequeue t =>
    match h.cursors t with
    | none => h
    | some r => h.put t (r.read c h.sent)

/-- The calls in which a consumer sees nothing twice: it does not ask again while the last
    message it was given is the newest one, except at the position of the writer, where it is
    told that there is nothing. -/
def Fresh (h : History ι) : Call ι n α → Prop
  | .tryDequeue t => ∀ r ∈ h.cursors t,
    (h.sent - r.pos) % 2 ^ 64 = 0 ∨ ∀ j ∈ r.got.getLast?, j + 1 ≠ h.sent
  | _ => True

instance (h : History ι) : (a : Call ι n α) → Decidable (Fresh h a)
  | .tryEnqueue _ | .createConsumer _ => isTrue trivial
  | .tryDequeue t =>
    have (r : Cursor) : Decidable (∀ j ∈ r.got.getLast?, j + 1 ≠ h.sent) :=
      Option.decidableForallMem _
    have (r : Cursor) : Decidable ((h.sent - r.pos) % 2 ^ 64 = 0 ∨
      ∀ j ∈ r.got.getLast?, j + 1 ≠ h.sent) := inferInstanceAs (Decidable (_ ∨ _))
    (Option.decidableForallMem (h.cursors t) :
      Decidable (∀ r ∈ h.cursors t, (h.sent - r.pos) % 2 ^ 64 = 0 ∨
        ∀ j ∈ r.got.getLast?, j + 1 ≠ h.sent))

/-- The numbers a consumer was given grow. -/
def Growing (h : History ι) : Prop :=
  ∀ t, ∀ r ∈ h.cursors t, r.got.Pairwise (· < ·)

/-- What holds of every consumer: the last number it was given belongs to the slot before its
    position. -/
structure Cursor.Sane (c : PowTwo 64) (sent : Nat) (r : Cursor) : Prop where
  first_le : r.first ≤ r.pos
  pos_le : r.pos ≤ sent
  bounds : ∀ i ∈ r.got, r.first ≤ i ∧ i < sent
  last : ∀ j ∈ r.got.getLast?, ∃ m, j + 1 = r.pos + c.toNat * m

/-- What holds of a consumer goes on to hold when a message is sent. -/
theorem Cursor.Sane.sent {k : Nat} {r : Cursor} (h : r.Sane c k) : r.Sane c (k + 1) where
  first_le := h.first_le
  pos_le := Nat.le_succ_of_le h.pos_le
  bounds i hi := (h.bounds i hi).imp_right Nat.lt_succ_of_lt
  last := h.last

/-- What holds of a consumer goes on to hold when it reads. -/
theorem Cursor.Sane.read {k : Nat} {r : Cursor} (h : r.Sane c k) : (r.read c k).Sane c k := by
  unfold Cursor.read
  split
  · exact h
  · rename_i hbehind
    have hlt : r.pos < k := by
      have := h.pos_le
      refine Nat.lt_of_le_of_ne this fun heq => hbehind ?_
      rw [heq, Nat.sub_self, Nat.zero_mod]
    refine ⟨Nat.le_succ_of_le h.first_le, hlt, fun i hi => ?_, fun j hj => ?_⟩
    · rcases List.mem_append.mp hi with hi | hi
      · exact h.bounds i hi
      · obtain rfl := List.mem_singleton.mp hi
        exact ⟨h.first_le.trans (Nat.le_add_right _ _), latest_lt hlt⟩
    · have hlast : j = latest c r.pos k := by simpa [eq_comm] using hj
      refine ⟨(k - r.pos - 1) / c.toNat, ?_⟩
      rw [hlast, latest]
      exact Nat.add_right_comm ..

/-- **One more number.** A consumer that is given a message is given a newer one than before,
    unless it had the newest one of all. -/
theorem Cursor.Sane.read_pairwise {k : Nat} {r : Cursor} (h : r.Sane c k) :
    (r.read c k).got.Pairwise (· < ·) ↔ r.got.Pairwise (· < ·) ∧
      ((k - r.pos) % 2 ^ 64 = 0 ∨ ∀ j ∈ r.got.getLast?, j + 1 ≠ k) := by
  unfold Cursor.read
  split
  · rename_i hzero
    exact ⟨fun hgrow => ⟨hgrow, .inl hzero⟩, fun hgrow => hgrow.1⟩
  · rename_i hbehind
    have hlt : r.pos < k := by
      refine Nat.lt_of_le_of_ne h.pos_le fun heq => hbehind ?_
      rw [heq, Nat.sub_self, Nat.zero_mod]
    have hnew := latest_lt (c := c) hlt
    rw [List.pairwise_append, and_congr_right_iff]
    intro hgrow
    constructor
    · rintro ⟨-, hall⟩
      refine .inr fun j hj heq => ?_
      have := hall j (List.mem_of_getLast? hj) _ (List.mem_singleton_self _)
      omega
    · rintro hne
      have hne := hne.resolve_left hbehind
      refine ⟨List.pairwise_singleton .., fun i hi j hj => ?_⟩
      obtain rfl := List.mem_singleton.mp hj
      -- the last number is below the new one, and the others below the last
      obtain ⟨last, hlast⟩ : ∃ last, r.got.getLast? = some last :=
        Option.isSome_iff_exists.mp (List.getLast?_isSome.mpr (List.ne_nil_of_mem hi))
      obtain ⟨m, hm⟩ := h.last last hlast
      have hbound := (h.bounds last (List.mem_of_getLast? hlast)).2
      have hle : r.pos + c.toNat * m ≤ latest c r.pos k := le_latest (by
        have := hne last hlast
        omega)
      have hilast : i ≤ last := by
        obtain ⟨rest, hrest⟩ := List.getLast?_eq_some_iff.mp hlast
        rw [hrest] at hi hgrow
        rcases List.mem_append.mp hi with hi | hi
        · exact ((List.pairwise_append.mp hgrow).2.2 i hi last (List.mem_singleton_self _)).le
        · exact (List.mem_singleton.mp hi).le
      omega

section

variable {h : History ι} {t : ι} {r : Cursor}

/-- Every consumer is sane. -/
def History.Sane (c : PowTwo 64) (h : History ι) : Prop :=
  ∀ t, ∀ r ∈ h.cursors t, r.Sane c h.sent

@[simp] theorem History.put_self : (h.put t r).cursors t = some r := Function.update_self ..

@[simp] theorem History.put_of_ne {u : ι} (hu : u ≠ t) :
    (h.put t r).cursors u = h.cursors u := Function.update_of_ne hu ..

/-- A property of all consumers after one of them has changed. -/
theorem History.put_forall {P : Cursor → Prop} :
    (∀ u, ∀ r' ∈ (h.put t r).cursors u, P r') ↔
      P r ∧ ∀ u, u ≠ t → ∀ r' ∈ h.cursors u, P r' := by
  constructor
  · intro hall
    exact ⟨hall t r put_self, fun u hu r' hr' => hall u r' ((put_of_ne hu).trans hr')⟩
  · rintro ⟨hr, hothers⟩ u r' hr'
    by_cases hu : u = t
    · rw [hu, put_self] at hr'
      exact Option.some.inj hr' ▸ hr
    · rw [put_of_ne hu] at hr'
      exact hothers u hu r' hr'

/-- What holds of every consumer goes on to hold after each call. -/
theorem History.Sane.after (hsane : h.Sane c) (a : Call ι n α) : (h.after c a).Sane c := by
  cases a with
  | tryEnqueue item => exact fun t r hr => (hsane t r hr).sent
  | createConsumer t =>
    cases hr : h.cursors t with
    | none =>
      simp only [History.after, hr]
      have hnew : Cursor.Sane c h.sent { first := h.sent, pos := h.sent, got := [] } :=
        ⟨le_rfl, le_rfl, by simp, by simp⟩
      exact put_forall.mpr ⟨hnew, fun u _ => hsane u⟩
    | some r =>
      simp only [History.after, hr]
      exact hsane
  | tryDequeue t =>
    cases hr : h.cursors t with
    | none =>
      simp only [History.after, hr]
      exact hsane
    | some r =>
      simp only [History.after, hr]
      exact put_forall.mpr ⟨(hsane t r hr).read, fun u _ => hsane u⟩

/-- **One call.** The numbers go on growing exactly if the call is a fresh one. -/
theorem History.Sane.growing_after (hsane : h.Sane c) (a : Call ι n α) :
    Growing (h.after c a) ↔ Growing h ∧ Fresh h a := by
  -- a consumer that is the only one to change
  have hput {t : ι} (hothers : ∀ r' ∈ h.cursors t, r'.got.Pairwise (· < ·)) :
      (∀ u, u ≠ t → ∀ r' ∈ h.cursors u, r'.got.Pairwise (· < ·)) → Growing h :=
    fun hrest u r' hr' => by
      by_cases hu : u = t
      · exact hothers r' (hu ▸ hr')
      · exact hrest u hu r' hr'
  cases a with
  | tryEnqueue item => exact (and_iff_left trivial).symm
  | createConsumer t =>
    refine Iff.trans ?_ (and_iff_left trivial).symm
    cases hr : h.cursors t with
    | none =>
      simp only [History.after, hr]
      refine Iff.trans put_forall ⟨fun hall => ?_, fun hall => ⟨List.Pairwise.nil, fun u _ => hall u⟩⟩
      exact hput (t := t) (by simp [hr]) hall.2
    | some r =>
      simp only [History.after, hr]
  | tryDequeue t =>
    cases hr : h.cursors t with
    | none => simp [History.after, Fresh, hr]
    | some r =>
      simp only [History.after, hr]
      refine Iff.trans put_forall ?_
      rw [(hsane t r hr).read_pairwise]
      have hfresh : Fresh h (.tryDequeue t : Call ι n α) ↔
          ((h.sent - r.pos) % 2 ^ 64 = 0 ∨ ∀ j ∈ r.got.getLast?, j + 1 ≠ h.sent) := by
        simp [Fresh, hr]
      rw [hfresh]
      constructor
      · rintro ⟨⟨hgrow, hfresh⟩, hothers⟩
        exact ⟨hput (t := t) (by simpa [hr] using hgrow) hothers, hfresh⟩
      · rintro ⟨hgrow, hfresh⟩
        exact ⟨⟨hgrow t r hr, hfresh⟩, fun u _ => hgrow u⟩

/-- **Every sequence of calls.** -/
theorem along_fresh_iff (hsane : h.Sane c) (hgrow : Growing h) (calls : List (Call ι n α)) :
    Along (History.after c) Fresh h calls ↔ Growing (calls.foldl (History.after c) h) := by
  have hback (calls : List (Call ι n α)) {h : History ι} (hsane : h.Sane c)
      (hlast : Growing (calls.foldl (History.after c) h)) : Growing h := by
    induction calls generalizing h with
    | nil => exact hlast
    | cons a rest ih => exact ((hsane.growing_after a).mp (ih (hsane.after a) hlast)).1
  induction calls generalizing h with
  | nil => exact ⟨fun _ => hgrow, fun _ => trivial⟩
  | cons a rest ih =>
    have hone := hsane.growing_after a
    constructor
    · rintro ⟨hfresh, hrest⟩
      exact (ih (hsane.after a) (hone.mpr ⟨hgrow, hfresh⟩)).mp hrest
    · intro hlast
      have hafter := hback rest (hsane.after a) hlast
      exact ⟨(hone.mp hafter).2, (ih (hsane.after a) hafter).mpr hlast⟩

end

/-! ### The code follows the history -/

/-- A consumer of the code and what the history says of it. -/
def Agrees (tr : List (Event ι n α)) (t : ι) (pos : Option (BitVec 64)) : Option Cursor → Prop
  | none => pos = none ∧ received t tr = []
  | some r => pos = some (BitVec.ofNat 64 r.pos) ∧ received t tr = pick (sent tr) r.got ∧
    since t tr = (sent tr).drop r.first

/-- The state of the code after calls with the events `tr` and the history `h`. -/
structure Tracks (c : PowTwo 64) (h : History ι) (s : State ι n α) (tr : List (Event ι n α)) :
    Prop where
  sane : h.Sane c
  length : (sent tr).length = h.sent
  writerPos : s.shared.writerPos = BitVec.ofNat 64 h.sent
  /-- Each slot holds the newest message that belongs there. -/
  slots : ∀ j m, (sent tr)[j]? = some m → h.sent ≤ j + c.toNat →
    s.shared.buffer (j % c.toNat) = m
  cursors : ∀ t, Agrees tr t (s.readPos t) (h.cursors t)

section

variable {h : History ι} {s : State ι n α} {tr : List (Event ι n α)} {t u : ι}
  {e : Event ι n α} {pos : Option (BitVec 64)} {r : Option Cursor}

/-- At the beginning the queue is as the numbers say. -/
theorem tracks_init (raw : Nat → Value n α) :
    Tracks c (History.init (ι := ι)) (State.init raw) [] where
  sane _ _ h := absurd h (by simp [History.init])
  length := rfl
  writerPos := rfl
  slots _ _ h := absurd h (by simp [sent])
  cursors _ := ⟨rfl, rfl⟩

/-- Nothing happens to a consumer with an event of another one. -/
theorem Agrees.other (h : Agrees tr t pos r) (he : receiver e = some u) (hne : u ≠ t) :
    Agrees (tr ++ [e]) t pos r := by
  have hreceived : received t (tr ++ [e]) = received t tr :=
    received_snoc_of_ne fun heq => hne (Option.some.inj (he.symm.trans heq))
  cases r with
  | none => exact ⟨h.1, hreceived.trans h.2⟩
  | some r =>
    refine ⟨h.1, ?_, ?_⟩
    · rw [hreceived, sent_snoc he]
      exact h.2.1
    · rw [since_snoc_of_ne he hne, sent_snoc he]
      exact h.2.2

/-- A message is sent. -/
theorem Agrees.send (h : Agrees tr t pos r) (hsane : ∀ r' ∈ r, r'.Sane c (sent tr).length)
    (m : Value n α) : Agrees (tr ++ [BroadcastEvent.sent m]) t pos r := by
  have hreceived : received t (tr ++ [BroadcastEvent.sent m]) = received t tr :=
    received_snoc_of_ne (by simp [receiver])
  cases r with
  | none => exact ⟨h.1, hreceived.trans h.2⟩
  | some r =>
    have hr := hsane r rfl
    refine ⟨h.1, ?_, ?_⟩
    · rw [hreceived, sent_snoc_sent, pick_of_lt fun i hi => (hr.bounds i hi).2]
      exact h.2.1
    · rw [since_snoc_sent, sent_snoc_sent,
        List.drop_append_of_le_length (hr.first_le.trans hr.pos_le), h.2.2]

/-- A consumer moves with an event of its own. -/
theorem Tracks.consumer (h' : Tracks c h s tr) (he : receiver e = some t) {r' : Cursor}
    {p : BitVec 64} (hsane : r'.Sane c h.sent)
    (hagrees : Agrees (tr ++ [e]) t (some p) (some r')) :
    Tracks c (h.put t r') { s with readPos := Function.update s.readPos t (some p) }
      (tr ++ [e]) := by
  refine ⟨History.put_forall.mpr ⟨hsane, fun u _ => h'.sane u⟩, ?_, h'.writerPos, ?_, fun u => ?_⟩
  · rw [sent_snoc he]
    exact h'.length
  · rw [sent_snoc he]
    exact h'.slots
  · by_cases hu : u = t
    · subst hu
      rw [History.put_self]
      simpa using hagrees
    · rw [History.put_of_ne hu]
      show Agrees _ u (Function.update s.readPos t _ u) _
      rw [Function.update_of_ne hu]
      exact (h'.cursors u).other he (Ne.symm hu)

/-- `try_enqueue` overwrites the message of one lap before. -/
theorem Tracks.tryEnqueue (h' : Tracks c h s tr) (item : Value n α) :
    Tracks c { h with sent := h.sent + 1 } { s with shared := tryEnqueue c s.shared item }
      (tr ++ [BroadcastEvent.sent item]) := by
  refine ⟨fun t r hr => (h'.sane t r hr).sent, ?_, ?_, fun j m hm hlap => ?_, fun t => ?_⟩
  · rw [sent_snoc_sent, List.length_append, h'.length]
    rfl
  · show s.shared.writerPos + 1#64 = _
    rw [h'.writerPos]
    exact (BitVec.ofNat_add _ 1).symm
  · show Function.update s.shared.buffer (slot c s.shared.writerPos) item (j % c.toNat) = m
    rw [h'.writerPos, slot_ofNat]
    rw [sent_snoc_sent] at hm
    have hlap' : h.sent + 1 ≤ j + c.toNat := hlap
    rcases Nat.lt_or_ge j (sent tr).length with hlt | hge
    · rw [List.getElem?_append_left hlt] at hm
      rw [h'.length] at hlt
      -- the overwritten message is a whole lap older than the new one
      have hne : j % c.toNat ≠ h.sent % c.toNat := fun heq =>
        absurd (c.eq_of_mod_eq (m := j) (by omega) (by omega) heq) (by omega)
      rw [Function.update_of_ne hne]
      exact h'.slots j m hm (by omega)
    · have hlt := (List.getElem?_eq_some_iff.mp hm).1
      rw [List.length_append, List.length_singleton] at hlt
      obtain rfl : j = (sent tr).length := by omega
      rw [List.getElem?_concat_length] at hm
      rw [h'.length, Function.update_self]
      exact Option.some.inj hm
  · exact (h'.cursors t).send (c := c) (fun r hr => h'.length ▸ h'.sane t r hr) item

/-- `try_dequeue` compares the positions as words. -/
theorem Tracks.writerPos_eq_iff (h' : Tracks c h s tr) {r : Cursor} (hr : h.cursors t = some r) :
    s.shared.writerPos = BitVec.ofNat 64 r.pos ↔ (h.sent - r.pos) % 2 ^ 64 = 0 := by
  have hle := (h'.sane t r hr).pos_le
  rw [h'.writerPos, ← BitVec.toNat_inj, BitVec.toNat_ofNat, BitVec.toNat_ofNat]
  omega

/-- **One call.** -/
theorem Tracks.call (h' : Tracks c h s tr) (a : Call ι n α) :
    Tracks c (h.after c a) (call c s a).1 (tr ++ (call c s a).2) := by
  cases a with
  | tryEnqueue item => exact h'.tryEnqueue item
  | createConsumer t =>
    have hagrees := h'.cursors t
    cases hr : h.cursors t with
    | some r =>
      rw [hr] at hagrees
      simp only [History.after, hr, SpmcBoundedMessageQueue.call, hagrees.1, List.append_nil]
      exact h'
    | none =>
      rw [hr] at hagrees
      simp only [History.after, hr, SpmcBoundedMessageQueue.call, hagrees.1]
      refine h'.consumer rfl ⟨le_rfl, le_rfl, by simp, by simp⟩ ⟨congrArg some h'.writerPos, ?_, ?_⟩
      · rw [received_snoc_created, hagrees.2]
        rfl
      · rw [since_snoc_created, sent_snoc (u := t) rfl, ← h'.length, List.drop_length]
  | tryDequeue t =>
    have hagrees := h'.cursors t
    cases hr : h.cursors t with
    | none =>
      rw [hr] at hagrees
      simp only [History.after, hr, SpmcBoundedMessageQueue.call, hagrees.1, List.append_nil]
      exact h'
    | some r =>
      rw [hr] at hagrees
      obtain ⟨hpos, hreceived, hsince⟩ := hagrees
      have hsane := h'.sane t r hr
      have hsent {e : Event ι n α} (he : receiver e = some t) : sent (tr ++ [e]) = sent tr :=
        sent_snoc he
      simp only [History.after, hr, SpmcBoundedMessageQueue.call, hpos, tryDequeue]
      by_cases hzero : (h.sent - r.pos) % 2 ^ 64 = 0
      · have hread : r.read c h.sent = r := if_pos hzero
        rw [if_pos ((h'.writerPos_eq_iff hr).mpr hzero), hread]
        have hsame : Function.update s.readPos t (some (BitVec.ofNat 64 r.pos)) = s.readPos := by
          rw [← hpos, Function.update_eq_self]
        have hmoved := h'.consumer (e := .refused t) rfl hsane (p := BitVec.ofNat 64 r.pos)
          ⟨rfl, by rw [received_snoc_refused, hsent rfl]; exact hreceived, by
            rw [since_snoc_refused, hsent rfl]; exact hsince⟩
        rw [hsame] at hmoved
        exact hmoved
      · have hread : r.read c h.sent =
            { r with pos := r.pos + 1, got := r.got ++ [latest c r.pos h.sent] } := if_neg hzero
        rw [if_neg (mt (h'.writerPos_eq_iff hr).mp hzero)]
        have hlt : r.pos < h.sent := by
          refine Nat.lt_of_le_of_ne hsane.pos_le fun heq => hzero ?_
          rw [heq, Nat.sub_self, Nat.zero_mod]
        -- the slot holds the newest message with that offset
        obtain ⟨m, hm⟩ : ∃ m, (sent tr)[latest c r.pos h.sent]? = some m :=
          ⟨_, List.getElem?_eq_getElem (h'.length.symm ▸ latest_lt hlt)⟩
        have hbuffer : s.shared.buffer (slot c (BitVec.ofNat 64 r.pos)) = m := by
          rw [slot_ofNat, ← latest_mod r.pos h.sent]
          exact h'.slots _ m hm (le_latest_add hlt)
        rw [hbuffer]
        refine h'.consumer rfl hsane.read ?_
        rw [hread]
        refine ⟨congrArg some (BitVec.ofNat_add _ 1).symm, ?_, ?_⟩
        · rw [received_snoc_received, hreceived, hsent rfl, pick_snoc hm]
        · rw [since_snoc_received, hsent rfl]
          exact hsince

/-- Every sequence of calls. -/
theorem Tracks.calls (h' : Tracks c h s tr) (calls : List (Call ι n α)) :
    ∃ s', Tracks c (calls.foldl (History.after c) h) s' (tr ++ events c s calls) := by
  induction calls generalizing h s tr with
  | nil => exact ⟨s, (List.append_nil tr).symm ▸ h'⟩
  | cons a rest ih =>
    obtain ⟨s', hs'⟩ := ih (h'.call a)
    rw [List.append_assoc] at hs'
    exact ⟨s', hs'⟩

end

/-! ### In order, or not -/

/-- Every consumer has been given a subsequence of the messages since its creation. -/
def InOrder (tr : List (Event ι n α)) : Prop :=
  ∀ t, (received t tr).Sublist (since t tr)

/-- **Slow consumers.** For every size of the ring and every sequence of calls, however far the
    consumers are behind: if each call is a fresh one, every consumer is given a subsequence of
    the messages since its creation; and if all messages are different, only then. -/
theorem inOrder_iff_fresh (c : PowTwo 64) (raw : Nat → Value n α) (calls : List (Call ι n α)) :
    (Along (History.after c) Fresh History.init calls →
      InOrder (events c (State.init raw) calls)) ∧
    ((sent (events c (State.init raw) calls)).Nodup →
      InOrder (events c (State.init raw) calls) →
      Along (History.after c) Fresh History.init calls) := by
  obtain ⟨s, htracks⟩ := (tracks_init (c := c) raw).calls calls
  rw [List.nil_append] at htracks
  have halong := along_fresh_iff (tracks_init (c := c) raw).sane
    (fun t r hr => absurd hr (by simp [History.init])) calls
  rw [halong]
  constructor
  · intro hgrow t
    have hagrees := htracks.cursors t
    cases hr : (calls.foldl (History.after c) History.init).cursors t with
    | none =>
      rw [hr] at hagrees
      rw [hagrees.2]
      exact List.nil_sublist _
    | some r =>
      rw [hr] at hagrees
      rw [hagrees.2.1, hagrees.2.2]
      exact pick_sublist_drop (hgrow t r hr) fun i hi => ((htracks.sane t r hr).bounds i hi).1
  · intro hnodup horder t r hr
    have hagrees := htracks.cursors t
    rw [show _ = some r from hr] at hagrees
    have hsub := horder t
    rw [hagrees.2.1, hagrees.2.2] at hsub
    refine pairwise_of_pick_sublist hnodup (fun i hi => ?_) (hsub.trans (List.drop_sublist _ _))
    rw [htracks.length]
    exact ((htracks.sane t r hr).bounds i hi).2

/-- A ring of two: a consumer four messages behind is given the third and the fourth one. -/
theorem inOrder_iff_fresh_two :
    received 0 (events ⟨1, by decide⟩ (State.init (ι := Fin 1) fun _ => (![0] : Value 1 Nat))
      [.createConsumer 0, .tryEnqueue ![1], .tryEnqueue ![2], .tryEnqueue ![3], .tryEnqueue ![4],
        .tryDequeue 0, .tryDequeue 0]) = [![3], ![4]] ∧
    InOrder (events ⟨1, by decide⟩ (State.init (ι := Fin 1) fun _ => (![0] : Value 1 Nat))
      [.createConsumer 0, .tryEnqueue ![1], .tryEnqueue ![2], .tryEnqueue ![3], .tryEnqueue ![4],
        .tryDequeue 0, .tryDequeue 0]) :=
  ⟨by decide, (inOrder_iff_fresh _ _ _).1 (by decide)⟩

/-- **Twice.** It asks once more, and is given the third one again. -/
theorem received_twice :
    received 0 (events ⟨1, by decide⟩ (State.init (ι := Fin 1) fun _ => (![0] : Value 1 Nat))
      [.createConsumer 0, .tryEnqueue ![1], .tryEnqueue ![2], .tryEnqueue ![3], .tryEnqueue ![4],
        .tryDequeue 0, .tryDequeue 0, .tryDequeue 0]) = [![3], ![4], ![3]] ∧
    ¬ InOrder (events ⟨1, by decide⟩ (State.init (ι := Fin 1) fun _ => (![0] : Value 1 Nat))
      [.createConsumer 0, .tryEnqueue ![1], .tryEnqueue ![2], .tryEnqueue ![3], .tryEnqueue ![4],
        .tryDequeue 0, .tryDequeue 0, .tryDequeue 0]) :=
  ⟨by decide, fun h => absurd (h 0) (by decide)⟩

end HopeThreading.SpmcBoundedMessageQueue
