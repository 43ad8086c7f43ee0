import Mathlib.Data.Fintype.Basic
import HopeThreading.Queue.SpmcNonUniformInv

namespace HopeThreading.SpmcBoundedNonUniformQueue

open Transition Memory Words

/-!
# `spmc_bounded_non_uniform_queue` — delivery

A writer that never overruns a consumer (`Disciplined`) leaves every record from a consumer's
next one on in the buffer, so the two sides agree on where each record is and the consumer
follows the boundaries of the writer.

* `ConsumerOk.step` — what one access of a consumer does, given that its records are kept;
* `writerStep_cases` — what one access of the writer does;
* `Inv` — the records so far, the writer, and each consumer at some record of its own;
* `delivered_of_run` — every consumer receives what was written since its creation, and the
  bytes that anybody reads or writes (`touched`) are inside of the buffer.
-/

variable {c : PowTwo 64} {ι : Type*}

/-! ### One access of a consumer -/

section

variable {recs : List (List Byte)} {q q' : Shared} {k : Nat} {l l' : Local} {t : ι}
  {es : List (Event ι)}

/-- Where the header of a record is, `read_size` reads its size. -/
theorem readSize_headerAt {buffer : Bytes} {pos : Nat} {payload : List Byte}
    (h : HeaderAt c buffer pos payload) :
    readSize buffer (corrected c (BitVec.ofNat 64 pos)).toNat = headerOf payload := by
  rw [readSize, ofBytes_eq_iff, corrected, PowTwo.toNat_and_mask, toNat_ofNat_mod]
  exact h

/-- Both sides compute the same place for a record … -/
theorem place_position_fst {payload : List Byte} (hfit : Fits c (boundary c recs k) payload) :
    (place c (position c recs k) (BitVec.ofNat 64 payload.length)).1.toNat =
      offset c (boundary c recs k) payload.length := by
  rw [place_fst _ hfit.len, position, offset_ofNat]

/-- … and the same position after it. -/
theorem place_position_snd {payload : List Byte} (hk : recs[k]? = some payload)
    (hfit : Fits c (boundary c recs k) payload) :
    (place c (position c recs k) (BitVec.ofNat 64 payload.length)).2 =
      position c recs (k + 1) := by
  rw [place_snd _ hfit.len, position, position, advance_ofNat, ← BitVec.ofNat_add,
    boundary_succ hk]

/-- **Consumer step.** A consumer whose records are kept stays at its record, or has handed it
    out and is at the next one. -/
theorem ConsumerOk.step (hl : ConsumerOk c recs k l) (hkept : Kept c recs q.buffer k)
    (hfit : AllFit c recs) (hpos : q.writerPos = position c recs recs.length)
    (h : consumerStep c t q l = some (q', l', es)) :
    q' = q ∧ (ConsumerOk c recs k l' ∧ (es = [] ∨ es = [.refused t] ∧ k = recs.length) ∨
      ∃ payload size, recs[k]? = some payload ∧ size.toNat = payload.length ∧
        es = [.received t size payload] ∧ ConsumerOk c recs (k + 1) l') := by
  cases l with
  | readWriterPos readPos =>
    simp only [consumerStep] at h
    split at h
    · -- the position of the writer is that of no record the consumer has not read
      rename_i heq
      cases h
      have hlast : k = recs.length :=
        hkept.eq_of_position ((show readPos = _ from hl).symm.trans (heq.symm.trans hpos))
      exact ⟨rfl, .inl ⟨hl, .inr ⟨rfl, hlast⟩⟩⟩
    · rename_i hne
      cases h
      refine ⟨rfl, .inl ⟨⟨hl, ?_⟩, .inl rfl⟩⟩
      -- another position than the writer's is that of a record not read yet
      refine Nat.lt_of_le_of_ne hkept.le fun heq => hne ?_
      rw [hpos, show readPos = _ from hl, heq]
  | readHeader readPos =>
    obtain ⟨rfl, hlt⟩ := hl
    cases h
    have hk := List.getElem?_eq_getElem hlt
    exact ⟨rfl, .inl ⟨⟨rfl, _, hk, readSize_headerAt (hkept.header k _ le_rfl hk)⟩, .inl rfl⟩⟩
  | advance readPos size =>
    obtain ⟨rfl, payload, hk, rfl⟩ := hl
    have hfits := hfit k payload hk
    simp only [consumerStep, setWidth_headerOf hfits.2] at h
    cases h
    exact ⟨rfl, .inl ⟨⟨rfl, place_position_snd hk hfits, payload, hk, rfl,
      place_position_fst hfits, rfl⟩, .inl rfl⟩⟩
  | callback start readPos off size read =>
    obtain ⟨rfl, rfl, payload, hk, rfl, hoff, hread⟩ := hl
    have hsize := toNat_headerOf (hfit k payload hk).2
    simp only [consumerStep] at h
    split at h
    · rename_i hlt
      cases h
      refine ⟨rfl, .inl ⟨⟨rfl, rfl, payload, hk, rfl, hoff, ?_⟩, .inl rfl⟩⟩
      rw [hsize] at hlt
      -- the next byte of the payload is in the buffer
      have hb := List.getElem?_eq_getElem hlt
      rw [hoff, hkept.payload k payload le_rfl hk _ _ hlt hb, List.length_append,
        List.length_singleton, List.take_add_one, hb, ← hread]
      rfl
    · rename_i hge
      cases h
      -- all bytes were read: the record is handed out
      rw [List.take_of_length_le (by omega)] at hread
      rw [hread]
      exact ⟨rfl, .inr ⟨payload, _, hk, hsize, rfl, rfl⟩⟩
  | ready readPos => exact absurd h (by simp [consumerStep])
  | idle => exact hl.elim
  | loadPos payload => exact hl.elim
  | writeHeader payload pos => exact hl.elim
  | writePayload payload pos i => exact hl.elim

/-- **Writer step.** -/
theorem writerStep_cases (h : writerStep c q l = some (q', l', es)) :
    (∃ payload, l = .loadPos payload ∧ q' = q ∧ l' = .writeHeader payload q.writerPos ∧
      es = []) ∨
    (∃ payload pos, l = .writeHeader payload pos ∧
      q' = { q with buffer := writeSize q.buffer (headerOf payload) (corrected c pos).toNat } ∧
      l' = .writePayload payload pos 0 ∧ es = []) ∨
    (∃ payload pos i b, l = .writePayload payload pos i ∧ payload[i]? = some b ∧
      q' = { q with
        buffer := store q.buffer
          ((place c pos (BitVec.ofNat 64 payload.length)).1.toNat + i) [b] } ∧
      l' = .writePayload payload pos (i + 1) ∧ es = []) ∨
    (∃ payload pos i, l = .writePayload payload pos i ∧ payload.length ≤ i ∧
      q' = { q with writerPos := (place c pos (BitVec.ofNat 64 payload.length)).2 } ∧
      l' = .idle ∧ es = [.wrote payload (place c pos (BitVec.ofNat 64 payload.length)).2]) := by
  -- the position is loaded, the header written, one byte written, or the record published
  cases l with
  | loadPos payload =>
    cases h
    exact .inl ⟨payload, rfl, rfl, rfl, rfl⟩
  | writeHeader payload pos =>
    cases h
    exact .inr (.inl ⟨payload, pos, rfl, rfl, rfl, rfl⟩)
  | writePayload payload pos i =>
    simp only [writerStep] at h
    split at h
    · rename_i b hb
      cases h
      exact .inr (.inr (.inl ⟨payload, pos, i, b, rfl, hb, rfl, rfl, rfl⟩))
    · rename_i hnone
      cases h
      exact .inr (.inr (.inr ⟨payload, pos, i, rfl, List.getElem?_eq_none_iff.mp hnone, rfl, rfl,
        rfl⟩))
  | _ => exact absurd h (by simp [writerStep])

end

/-! ### What has happened -/

/-- The records published so far. -/
def records (tr : List (Event ι)) : List (List Byte) :=
  tr.filterMap fun
    | .wrote payload _ => some payload
    | _ => none

/-- The record boundaries of the writer. -/
def boundaries (tr : List (Event ι)) : List (BitVec 64) :=
  0#64 :: tr.filterMap fun
    | .wrote _ pos => some pos
    | _ => none

section

variable [DecidableEq ι]

/-- What the callbacks of consumer `t` were given. -/
def received (t : ι) (tr : List (Event ι)) : List (Nat × List Byte) :=
  tr.filterMap fun
    | .received u size read => if u = t then some (size.toNat, read) else none
    | _ => none

/-- The records published since consumer `t` was created. -/
def since (t : ι) (tr : List (Event ι)) : List (List Byte) :=
  tr.foldl (fun recs e => match e with
    | .wrote payload _ => recs ++ [payload]
    | .created u => if u = t then [] else recs
    | _ => recs) []

end

/-- What a callback should be given for a record. -/
def delivery (payload : List Byte) : Nat × List Byte := (payload.length, payload)

/-- The consumer that an event is about. -/
def Event.consumer : Event ι → Option ι
  | .wrote _ _ => none
  | .created t | .received t _ _ | .refused t => some t

section

variable {tr es : List (Event ι)}

/-- The records of a run are those of its pieces. -/
theorem records_append : records (tr ++ es) = records tr ++ records es :=
  List.filterMap_append

/-- A boundary of the writer stays one. -/
theorem boundaries_mono {pos : BitVec 64} (h : pos ∈ boundaries tr) :
    pos ∈ boundaries (tr ++ es) := by
  unfold boundaries at h ⊢
  rw [List.filterMap_append, ← List.cons_append]
  exact List.mem_append_left _ h

/-- The records do not change with an event of a consumer. -/
theorem records_of_consumer (tr : List (Event ι)) {r : ι} (hes : ∀ e ∈ es, e.consumer = some r) :
    records (tr ++ es) = records tr := by
  have hnone : records es = [] := List.filterMap_eq_nil_iff.mpr fun e he => by
    cases e with
    | wrote payload pos => exact absurd (hes _ he) (by simp [Event.consumer])
    | created t => rfl
    | received t size read => rfl
    | refused t => rfl
  rw [records_append, hnone, List.append_nil]

variable [DecidableEq ι] {t : ι}

/-- What a consumer has taken in a run is what it took in its pieces. -/
theorem received_append : received t (tr ++ es) = received t tr ++ received t es :=
  List.filterMap_append

/-- What another consumer receives does not matter to `t` … -/
theorem received_of_consumer {r : ι} (hr : t ≠ r) (hes : ∀ e ∈ es, e.consumer = some r) :
    received t (tr ++ es) = received t tr := by
  have hnone : received t es = [] := List.filterMap_eq_nil_iff.mpr fun e he => by
    cases e with
    | received u size read =>
      obtain rfl : u = r := Option.some.inj (hes _ he)
      exact if_neg (Ne.symm hr)
    | wrote payload pos => rfl
    | created u => rfl
    | refused u => rfl
  rw [received_append, hnone, List.append_nil]

/-- … nor when it was created. -/
theorem since_of_consumer {r : ι} (hr : t ≠ r) (hes : ∀ e ∈ es, e.consumer = some r) :
    since t (tr ++ es) = since t tr := by
  rw [since, List.foldl_append]
  induction es with
  | nil => rfl
  | cons e es ih =>
    have he := hes e (List.mem_cons_self ..)
    have hrest := ih fun e he => hes e (List.mem_cons_of_mem _ he)
    rw [List.foldl_cons]
    cases e with
    | created u =>
      obtain rfl : u = r := Option.some.inj he
      simp only [if_neg (Ne.symm hr)]
      exact hrest
    | wrote payload pos => exact absurd he (by simp [Event.consumer])
    | received u size read => exact hrest
    | refused u => exact hrest

end

/-! ### The condition -/

/-- The record that the writer has begun to write, and its position. -/
def writing : Local → Option (List Byte × BitVec 64)
  | .writeHeader payload pos | .writePayload payload pos _ => some (payload, pos)
  | _ => none

/-- The start of the oldest record that a consumer still needs: the one its callback is in, or
    the next one. -/
def oldest : Local → Option (BitVec 64)
  | .ready pos | .readWriterPos pos | .readHeader pos | .advance pos _ | .callback pos .. =>
    some pos
  | _ => none

/-- `m_local_read_position`. -/
def readPosition : Local → Option (BitVec 64)
  | .ready pos | .readWriterPos pos | .readHeader pos | .advance pos _ | .callback _ pos .. =>
    some pos
  | _ => none

/-- There is room for a record: its header is inside of the buffer, the payload is not longer
    than the buffer, and the record ends at most one lap after what any consumer still needs,
    which says the second again as soon as there is a consumer. -/
def Room (c : PowTwo 64) (cfg : Config (Option ι) Shared Local) (payload : List Byte)
    (pos : BitVec 64) : Prop :=
  Fits c pos.toNat payload ∧ payload.length ≤ c.toNat ∧
    ∀ t, ∀ start ∈ oldest (cfg.threads (some t)),
      (pos - start).toNat + advance c pos.toNat payload.length ≤ c.toNat

/-- Nobody is overrun: the writer writes where there is room. -/
def Disciplined (c : PowTwo 64) (cfg : Config (Option ι) Shared Local)
    (a : Option ι × Label) : Prop :=
  a.1 = none → ∀ w ∈ writing (cfg.threads none), Room c cfg w.1 w.2

instance (pos : Nat) (payload : List Byte) : Decidable (Fits c pos payload) :=
  inferInstanceAs (Decidable (_ ∧ _))

instance [Fintype ι] (cfg : Config (Option ι) Shared Local) (payload : List Byte)
    (pos : BitVec 64) : Decidable (Room c cfg payload pos) :=
  -- the instance for words would try every word
  have (t : ι) : Decidable (∀ start ∈ oldest (cfg.threads (some t)),
      (pos - start).toNat + advance c pos.toNat payload.length ≤ c.toNat) :=
    Option.decidableForallMem _
  inferInstanceAs (Decidable (_ ∧ _ ∧ ∀ _, _))

instance [Fintype ι] (cfg : Config (Option ι) Shared Local) (a : Option ι × Label) :
    Decidable (Disciplined c cfg a) :=
  inferInstanceAs (Decidable (a.1 = none → ∀ w ∈ writing _, _))

/-! ### The invariant -/

section

variable [DecidableEq ι] {tr es : List (Event ι)} {cfg : Config (Option ι) Shared Local}

/-- Consumer `t` was created at record `first` and reads record `k` next. -/
structure Follows (c : PowTwo 64) (tr : List (Event ι)) (t : ι) (buffer : Bytes) (l : Local)
    (first k : Nat) : Prop where
  le : first ≤ k
  since_eq : since t tr = (records tr).drop first
  received_eq : received t tr = (((records tr).take k).drop first).map delivery
  kept : Kept c (records tr) buffer k
  ok : ConsumerOk c (records tr) k l

/-- A thread of a consumer, created or not. -/
def Follower (c : PowTwo 64) (tr : List (Event ι)) (t : ι) (buffer : Bytes) (l : Local) : Prop :=
  l = .idle ∧ received t tr = [] ∨ ∃ first k, Follows c tr t buffer l first k

/-- The invariant: the writer is at the end of its records, and every consumer follows them. -/
structure Inv (c : PowTwo 64) (tr : List (Event ι)) (cfg : Config (Option ι) Shared Local) :
    Prop where
  writerPos : cfg.shared.writerPos = position c (records tr) (records tr).length
  fit : AllFit c (records tr)
  boundaries : ∀ k, k ≤ (records tr).length → position c (records tr) k ∈ boundaries tr
  writer : WriterOk c (records tr) cfg.shared (cfg.threads none)
  consumers : ∀ t, Follower c tr t cfg.shared.buffer (cfg.threads (some t))

/-- The invariant holds at the beginning. -/
theorem inv_init (raw : Bytes) : Inv c [] (program c ι raw).machine.init where
  writerPos := rfl
  fit _ _ h := absurd h (by simp [records])
  boundaries k hk := by
    obtain rfl : k = 0 := Nat.le_zero.mp hk
    exact List.mem_cons_self ..
  writer := trivial
  consumers _ := .inl ⟨rfl, rfl⟩

/-- What a consumer still needs begins at its boundary. -/
theorem ConsumerOk.oldest {recs : List (List Byte)} {k : Nat} {l : Local}
    (h : ConsumerOk c recs k l) : oldest l = some (position c recs k) := by
  cases l with
  | ready pos => exact congrArg some h
  | readWriterPos pos => exact congrArg some h
  | readHeader pos => exact congrArg some h.1
  | advance pos size => exact congrArg some h.1
  | callback start pos off size read => exact congrArg some h.1
  | _ => exact h.elim

/-- A consumer that has its own records, sees an event of another one. -/
theorem Follows.of_consumer {t r : ι} {buffer : Bytes} {l : Local} {first k : Nat}
    (h : Follows c tr t buffer l first k) (hr : t ≠ r)
    (hes : ∀ e ∈ es, e.consumer = some r) : Follows c (tr ++ es) t buffer l first k := by
  have hrecs := records_of_consumer tr hes
  refine ⟨h.le, ?_, ?_, hrecs ▸ h.kept, hrecs ▸ h.ok⟩
  · rw [since_of_consumer hr hes, hrecs]
    exact h.since_eq
  · rw [received_of_consumer hr hes, hrecs]
    exact h.received_eq

/-- A consumer moves. -/
theorem Inv.consumer_moves (inv : Inv c tr cfg) (r : ι) {l : Local}
    (hes : ∀ e ∈ es, e.consumer = some r) (hr : Follower c (tr ++ es) r cfg.shared.buffer l) :
    Inv c (tr ++ es) (cfg.set (some r) cfg.shared l) := by
  have hrecs := records_of_consumer tr hes
  refine ⟨?_, ?_, fun k hk => ?_, ?_, fun t => ?_⟩
  · rw [hrecs]
    exact inv.writerPos
  · rw [hrecs]
    exact inv.fit
  · rw [hrecs] at hk ⊢
    exact boundaries_mono (inv.boundaries k hk)
  · rw [hrecs, Config.set_threads_of_ne (by simp)]
    exact inv.writer
  · by_cases htr : t = r
    · rw [htr, Config.set_threads_self]
      exact hr
    · rw [Config.set_threads_of_ne fun h => htr (Option.some.inj h)]
      rcases inv.consumers t with ⟨hidle, hnone⟩ | ⟨first, k, h⟩
      · exact .inl ⟨hidle, (received_of_consumer htr hes).trans hnone⟩
      · exact .inr ⟨first, k, h.of_consumer htr hes⟩

/-- A consumer that is created now follows from the last boundary on. -/
theorem Inv.created (inv : Inv c tr cfg) (r : ι) (hidle : cfg.threads (some r) = .idle) :
    Follower c (tr ++ [Event.created r]) r cfg.shared.buffer (.ready cfg.shared.writerPos) := by
  have hrecs : records (tr ++ [Event.created r]) = records tr :=
    records_of_consumer (r := r) tr (by simp [Event.consumer])
  have hnone : received r tr = [] := by
    rcases inv.consumers r with ⟨-, hnone⟩ | ⟨first, k, h⟩
    · exact hnone
    · rw [hidle] at h
      exact h.ok.elim
  refine .inr ⟨_, _, le_rfl, ?_, ?_, hrecs.symm ▸ Kept.created _ _, hrecs ▸ inv.writerPos⟩
  · rw [since, List.foldl_append, hrecs, List.drop_length]
    exact if_pos rfl
  · rw [received_append, hnone, hrecs, List.take_length, List.drop_length]
    rfl

/-- A consumer takes one step, in the order of the records. -/
theorem Inv.consumer_step (inv : Inv c tr cfg) (r : ι) {q : Shared} {l : Local}
    (h : consumerStep c r cfg.shared (cfg.threads (some r)) = some (q, l, es)) :
    Inv c (tr ++ es) (cfg.set (some r) q l) := by
  rcases inv.consumers r with ⟨hidle, -⟩ | ⟨first, k, hf⟩
  · rw [hidle] at h
    exact absurd h (by simp [consumerStep])
  obtain ⟨rfl, ⟨hl, hes⟩ | ⟨payload, size, hk, hsize, rfl, hl⟩⟩ :=
    hf.ok.step hf.kept inv.fit inv.writerPos h
  · -- the callback has not returned: nothing is handed out
    have hof : ∀ e ∈ es, e.consumer = some r := by
      rcases hes with rfl | ⟨rfl, -⟩ <;> simp [Event.consumer]
    have hrecs := records_of_consumer tr hof
    refine inv.consumer_moves r hof (.inr ⟨first, k, hf.le, ?_, ?_, hrecs ▸ hf.kept, hrecs ▸ hl⟩)
    · rw [hrecs, ← hf.since_eq]
      rcases hes with rfl | ⟨rfl, -⟩
      · rw [List.append_nil]
      · rw [since, List.foldl_append]
        rfl
    · rw [hrecs, ← hf.received_eq, received_append]
      rcases hes with rfl | ⟨rfl, -⟩ <;> exact List.append_nil _
  · have hof : ∀ e ∈ [Event.received r size payload], e.consumer = some r := by
      simp [Event.consumer]
    have hrecs := records_of_consumer tr hof
    -- the record is handed out, and the consumer depends on the next ones only
    have hlen : first ≤ ((records tr).take k).length := by
      rw [List.length_take, Nat.min_eq_left hf.kept.le]
      exact hf.le
    refine inv.consumer_moves r hof (.inr ⟨first, k + 1, Nat.le_succ_of_le hf.le, ?_, ?_,
      hrecs ▸ hf.kept.next hk, hrecs ▸ hl⟩)
    · rw [hrecs, ← hf.since_eq, since, List.foldl_append]
      rfl
    · rw [hrecs, received_append, hf.received_eq, List.take_add_one, hk, Option.toList_some,
        List.drop_append_of_le_length hlen, List.map_append]
      simp [received, delivery, hsize]

/-! ### The writer -/

/-- The condition in terms of boundaries. -/
theorem Inv.room (inv : Inv c tr cfg) {payload : List Byte}
    (h : Room c cfg payload cfg.shared.writerPos) :
    Fits c (boundary c (records tr) (records tr).length) payload ∧ ∀ t first k,
      Follows c tr t cfg.shared.buffer (cfg.threads (some t)) first k →
      boundary c (records tr) (records tr).length +
        advance c (boundary c (records tr) (records tr).length) payload.length ≤
      boundary c (records tr) k + c.toNat := by
  obtain ⟨hfits, -, hroom⟩ := h
  rw [inv.writerPos] at hfits hroom
  refine ⟨⟨?_, hfits.2⟩, fun t first k hf => ?_⟩
  · have hheader := hfits.1
    rw [position, toNat_ofNat_mod] at hheader
    exact hheader
  · have hlap := hroom t _ hf.ok.oldest
    have hdist := hf.kept.distance
    rw [show advance c (position c (records tr) (records tr).length).toNat payload.length = _ from
      advance_ofNat _ _] at hlap
    omega

/-- The writer moves without publishing. -/
theorem Inv.writer_moves (inv : Inv c tr cfg) {q : Shared} {l : Local}
    (hpos : q.writerPos = cfg.shared.writerPos) (hw : WriterOk c (records tr) q l)
    (hkept : ∀ t first k, Follows c tr t cfg.shared.buffer (cfg.threads (some t)) first k →
      Kept c (records tr) q.buffer k) : Inv c tr (cfg.set none q l) := by
  refine ⟨hpos.trans inv.writerPos, inv.fit, inv.boundaries, ?_, fun t => ?_⟩
  · rw [Config.set_threads_self]
    exact hw
  · rw [Config.set_threads_of_ne (by simp)]
    rcases inv.consumers t with hidle | ⟨first, k, hf⟩
    · exact .inl hidle
    · exact .inr ⟨first, k, hf.le, hf.since_eq, hf.received_eq, hkept t first k hf, hf.ok⟩

/-- The writer writes to addresses of its record. -/
theorem Inv.write (inv : Inv c tr cfg) {payload : List Byte}
    (h : Room c cfg payload cfg.shared.writerPos) {buffer : Bytes} {l : Local}
    (hsame : advance c (boundary c (records tr) (records tr).length) payload.length ≤ c.toNat →
      ∀ a, ¬ Owns c (boundary c (records tr) (records tr).length) payload a →
        buffer a = cfg.shared.buffer a)
    (hw : WriterOk c (records tr) { cfg.shared with buffer := buffer } l) :
    Inv c tr (cfg.set none { cfg.shared with buffer := buffer } l) := by
  refine inv.writer_moves rfl hw fun t first k hf => ?_
  have hroom := (inv.room h).2 t first k hf
  have hle := boundary_le (c := c) hf.kept.le le_rfl
  exact hf.kept.write inv.fit hroom (hsame (by omega))

/-- The writer publishes its record. -/
theorem Inv.publish (inv : Inv c tr cfg) {payload : List Byte}
    (h : Room c cfg payload cfg.shared.writerPos)
    (hwritten : advance c (boundary c (records tr) (records tr).length) payload.length ≤ c.toNat →
      HeaderAt c cfg.shared.buffer (boundary c (records tr) (records tr).length) payload ∧
      PayloadAt c cfg.shared.buffer (boundary c (records tr) (records tr).length) payload
        payload.length) {pos : BitVec 64}
    (hpos : pos = position c (records tr ++ [payload]) ((records tr).length + 1)) :
    Inv c (tr ++ [Event.wrote payload pos])
      (cfg.set none { cfg.shared with writerPos := pos } .idle) := by
  have hrecs : records (tr ++ [Event.wrote payload pos]) = records tr ++ [payload] := records_append
  obtain ⟨hfits, hroom⟩ := inv.room h
  refine ⟨?_, fun j p hp => ?_, fun k hk => ?_, ?_, fun t => ?_⟩
  -- position, sizes, boundaries, the writer, and then every consumer
  · rw [hrecs, List.length_append]
    exact hpos
  · rw [hrecs] at hp ⊢
    rcases record_cases (c := c) hp with ⟨hp, hb⟩ | ⟨rfl, hb⟩
    · rw [hb]
      exact inv.fit j p hp
    · rw [hb]
      exact hfits
  · rw [hrecs, List.length_append, List.length_singleton] at hk
    rw [hrecs]
    rcases Nat.lt_or_eq_of_le hk with hlt | rfl
    · rw [position_append (Nat.le_of_lt_succ hlt)]
      exact boundaries_mono (inv.boundaries k (Nat.le_of_lt_succ hlt))
    · rw [← hpos, SpmcBoundedNonUniformQueue.boundaries, List.filterMap_append]
      exact List.mem_cons_of_mem _ (List.mem_append_right _ (List.mem_singleton_self _))
  · rw [Config.set_threads_self]
    trivial
  · rw [Config.set_threads_of_ne (by simp)]
    rcases inv.consumers t with ⟨hidle, hnone⟩ | ⟨first, k, hf⟩
    · exact .inl ⟨hidle, by rw [received_append, hnone]; rfl⟩
    have hle := boundary_le (c := c) hf.kept.le le_rfl
    have hlap := hroom t first k hf
    -- the new record ends less than a lap ahead of what the consumer reads next
    obtain ⟨hheader, hpayload⟩ := hwritten (by omega)
    refine .inr ⟨first, k, hf.le, ?_, ?_, ?_, ?_⟩
    · rw [hrecs, List.drop_append_of_le_length (hf.le.trans hf.kept.le), ← hf.since_eq, since,
        List.foldl_append]
      rfl
    · rw [hrecs, List.take_append_of_le_length hf.kept.le, ← hf.received_eq, received_append]
      exact List.append_nil _
    · rw [hrecs]
      exact hf.kept.publish hlap hheader hpayload
    · rw [hrecs]
      exact hf.ok.append hf.kept.le _

/-- The writer takes one step. -/
theorem Inv.writer_step (inv : Inv c tr cfg) (allowed : Disciplined c cfg (none, .step))
    {q : Shared} {l : Local}
    (h : writerStep c cfg.shared (cfg.threads none) = some (q, l, es)) :
    Inv c (tr ++ es) (cfg.set none q l) := by
  have hroom := allowed rfl
  have hw := inv.writer
  rcases writerStep_cases h with ⟨payload, hl, rfl, rfl, rfl⟩ | ⟨payload, pos, hl, rfl, rfl, rfl⟩ |
    ⟨payload, pos, i, b, hl, hb, rfl, rfl, rfl⟩ | ⟨payload, pos, i, hl, hi, rfl, rfl, rfl⟩
  · -- the load of the position
    rw [List.append_nil]
    exact inv.writer_moves rfl rfl fun t first k hf => hf.kept
  all_goals rw [hl] at hw hroom
  · -- the header
    obtain rfl : pos = cfg.shared.writerPos := hw
    have hroom : Room c cfg payload cfg.shared.writerPos := hroom _ rfl
    have hfits := (inv.room hroom).1
    have haddr : (corrected c cfg.shared.writerPos).toNat =
        boundary c (records tr) (records tr).length % c.toNat := by
      rw [corrected, PowTwo.toNat_and_mask, inv.writerPos, position, toNat_ofNat_mod]
    rw [List.append_nil, haddr]
    refine inv.write hroom (fun _ a ha => writeSize_outside hfits _ ha) ?_
    refine ⟨rfl, hfits, Nat.zero_le _, fun _ => ⟨headerAt_writeSize _ _, fun i _ hi => ?_⟩⟩
    exact absurd hi (Nat.not_lt_zero i)
  · -- one byte of the payload
    obtain ⟨rfl, hfits, hle, hwritten⟩ := hw
    have hroom : Room c cfg payload cfg.shared.writerPos := hroom _ rfl
    have haddr := place_position_fst hfits
    rw [← inv.writerPos] at haddr
    rw [List.append_nil, haddr]
    refine inv.write hroom (fun hlap a ha => store_payload_outside hlap _ hb ha) ?_
    refine ⟨rfl, hfits, (List.getElem?_eq_some_iff.mp hb).1, fun hlap => ?_⟩
    obtain ⟨hheader, hpayload⟩ := hwritten hlap
    exact ⟨headerAt_store hfits hlap hb hheader, payloadAt_store hb hpayload⟩
  · -- all bytes are written, and the position is published
    obtain ⟨rfl, hfits, hle, hwritten⟩ := hw
    obtain rfl : i = payload.length := Nat.le_antisymm hle hi
    refine inv.publish (hroom _ rfl) hwritten ?_
    have hlast : (records tr ++ [payload])[(records tr).length]? = some payload :=
      List.getElem?_concat_length
    have hb : boundary c (records tr ++ [payload]) (records tr).length = _ :=
      boundary_append le_rfl _
    rw [← place_position_snd hlast (hb ▸ hfits), position_append le_rfl, ← inv.writerPos]

end

/-! ### Delivery -/

/-- The invariant along a run. -/
theorem Inv.of_run [DecidableEq ι] (c : PowTwo 64) (raw : Bytes) {tr : List (Event ι)}
    {cfg : Config (Option ι) Shared Local}
    (run : (program c ι raw).machine.RunIf (Disciplined c) tr cfg) : Inv c tr cfg := by
  refine Program.invariant (inv_init raw) ?_ run
  intro tr cfg t k q l es inv allowed hstep
  rcases next_cases c hstep with ⟨payload, rfl, -, rfl, rfl, rfl⟩ | ⟨r, rfl, hl, rfl, rfl, rfl⟩ |
    ⟨r, readPos, rfl, hl, rfl, rfl, rfl⟩ | ⟨rfl, rfl, hacc⟩ | ⟨r, rfl, hacc⟩
  · rw [List.append_nil]
    exact inv.writer_moves rfl trivial fun t first k hf => hf.kept
  · exact inv.consumer_moves r (by simp [Event.consumer]) (inv.created r hl)
  · -- the call begins at the same record
    rcases inv.consumers r with ⟨hidle, -⟩ | ⟨first, k, hf⟩
    · exact absurd (hidle.symm.trans hl) (by simp)
    · have hok := hf.ok
      rw [hl] at hok
      refine inv.consumer_moves r (by simp) ?_
      rw [List.append_nil]
      exact .inr ⟨first, k, hf.le, hf.since_eq, hf.received_eq, hf.kept, hok⟩
  · exact inv.writer_step allowed hacc
  · exact inv.consumer_step r hacc

/-- The offsets in `m_buffer` of the bytes that the next access of a thread reads or writes. -/
def touched (c : PowTwo 64) : Local → List Nat
  | .writeHeader _ pos => (List.range 4).map ((corrected c pos).toNat + ·)
  | .writePayload payload pos i =>
    if i < payload.length then
      [(place c pos (BitVec.ofNat 64 payload.length)).1.toNat + i]
    else []
  | .readHeader readPos => (List.range 4).map ((corrected c readPos).toNat + ·)
  | .callback _ _ offset size read =>
    if read.length < size.toNat then [offset.toNat + read.length] else []
  | _ => []

/-- What consumer `t` can rely on. -/
structure Delivered [DecidableEq ι] (c : PowTwo 64) (raw : Bytes) (tr : List (Event ι))
    (cfg : Config (Option ι) Shared Local) (t : ι) : Prop where
  /-- The callbacks were given the records since its creation, in order … -/
  intact : received t tr <+: (since t tr).map delivery
  /-- … and the one that runs now is given the next of them. -/
  running : ∀ start pos off size read, cfg.threads (some t) = .callback start pos off size read →
    ∃ payload, (since t tr)[(received t tr).length]? = some payload ∧
      size.toNat = payload.length ∧ read <+: payload
  /-- When its next access finds that there is no record, it was given all of them … -/
  refused : ∀ cfg' es, (program c ι raw).machine.next cfg (some t, .step) = some (cfg', es) →
    .refused t ∈ es → received t tr = (since t tr).map delivery
  /-- … as at any time when it is at the position of the writer. -/
  complete : ∀ pos, cfg.threads (some t) = .ready pos → pos = cfg.shared.writerPos →
    received t tr = (since t tr).map delivery
  boundary : ∀ pos ∈ readPosition (cfg.threads (some t)), pos ∈ boundaries tr

section

variable [DecidableEq ι] {tr : List (Event ι)} {cfg : Config (Option ι) Shared Local}

/-- The read position is at the record that is read next, or behind the one that is handed
    out now. -/
theorem ConsumerOk.readPosition {recs : List (List Byte)} {k : Nat} {l : Local}
    (h : ConsumerOk c recs k l) (hk : k ≤ recs.length) {pos : BitVec 64}
    (hpos : pos ∈ readPosition l) : ∃ j, j ≤ recs.length ∧ pos = position c recs j := by
  cases l with
  | ready readPos =>
    obtain rfl : readPos = pos := Option.some.inj hpos
    exact ⟨k, hk, h⟩
  | readWriterPos readPos =>
    obtain rfl : readPos = pos := Option.some.inj hpos
    exact ⟨k, hk, h⟩
  | readHeader readPos =>
    obtain rfl : readPos = pos := Option.some.inj hpos
    exact ⟨k, hk, h.1⟩
  | advance readPos size =>
    obtain rfl : readPos = pos := Option.some.inj hpos
    exact ⟨k, hk, h.1⟩
  | callback start readPos off size read =>
    obtain rfl : readPos = pos := Option.some.inj hpos
    obtain ⟨-, hnext, payload, hp, -⟩ := h
    exact ⟨k + 1, (List.getElem?_eq_some_iff.mp hp).1, hnext⟩
  | _ => exact h.elim

/-- A consumer is as far as it has received records. -/
theorem Follows.length_received {t : ι} {buffer : Bytes} {l : Local} {first k : Nat}
    (h : Follows c tr t buffer l first k) : first + (received t tr).length = k := by
  have hle := h.le
  rw [h.received_eq, List.length_map, List.length_drop, List.length_take,
    Nat.min_eq_left h.kept.le]
  omega

/-- A consumer that follows has what it should have. -/
theorem Follows.delivered (inv : Inv c tr cfg) (raw : Bytes) {t : ι} {first k : Nat}
    (h : Follows c tr t cfg.shared.buffer (cfg.threads (some t)) first k) :
    Delivered c raw tr cfg t where
  intact := by
    rw [h.since_eq, h.received_eq, List.drop_take]
    exact List.IsPrefix.map _ ( List.take_prefix _ _)
  running start pos off size read hl := by
    have hok := h.ok
    rw [hl] at hok
    obtain ⟨-, -, payload, hp, rfl, -, hread⟩ := hok
    refine ⟨payload, ?_, toNat_headerOf (inv.fit k payload hp).2, ?_⟩
    · rw [h.since_eq, List.getElem?_drop, h.length_received, hp]
    · rw [hread]
      exact List.take_prefix _ _
  refused cfg' es hnext hmem := by
    obtain ⟨q, l, hstep, -⟩ := Program.next_cases hnext
    rcases (h.ok.step h.kept inv.fit inv.writerPos hstep).2 with
      ⟨-, rfl | ⟨-, rfl⟩⟩ | ⟨payload, size, -, -, rfl, -⟩
    · exact absurd hmem List.not_mem_nil
    · rw [h.since_eq, h.received_eq, List.take_length]
    · exact absurd hmem (by simp)
  complete pos hl heq := by
    have hok := h.ok
    rw [hl] at hok
    obtain rfl : k = (records tr).length :=
      h.kept.eq_of_position (hok.symm.trans (heq.trans inv.writerPos))
    rw [h.since_eq, h.received_eq, List.take_length]
  boundary pos hpos := by
    obtain ⟨j, hj, rfl⟩ := h.ok.readPosition h.kept.le hpos
    exact inv.boundaries j hj

/-- Under the invariant every consumer has what it should have. -/
theorem Inv.delivered (inv : Inv c tr cfg) (raw : Bytes) (t : ι) : Delivered c raw tr cfg t := by
  rcases inv.consumers t with ⟨hidle, hnone⟩ | ⟨first, k, hf⟩
  · refine ⟨?_, fun _ _ _ _ _ hl => ?_, fun _ _ hnext _ => ?_, fun _ hl => ?_, fun _ hpos => ?_⟩
    · rw [hnone]
      exact List.nil_prefix
    · exact absurd (hidle.symm.trans hl) (by simp)
    · -- a consumer that is not created yet has no access to do
      obtain ⟨q, l, hstep, -⟩ := Program.next_cases hnext
      change next c cfg.shared (cfg.threads (some t)) (some t) .step = _ at hstep
      rw [hidle] at hstep
      exact absurd hstep (by simp [next, consumerStep])
    · exact absurd (hidle.symm.trans hl) (by simp)
    · rw [hidle] at hpos
      exact absurd hpos (by simp [readPosition])
  · exact hf.delivered inv raw

/-! ### Inside of the buffer -/

/-- The four bytes of a header are next to each other. -/
theorem mem_header {base x : Nat} (hx : x ∈ (List.range 4).map (base + ·)) : x < base + 4 := by
  obtain ⟨i, hi, rfl⟩ := List.mem_map.mp hx
  exact Nat.add_lt_add_left (List.mem_range.mp hi) base

/-- A payload that is not longer than the buffer ends inside of it. -/
theorem offset_add_lt {pos len i : Nat} (hlen : len ≤ c.toNat) (hi : i < len) :
    offset c pos len + i < c.toNat := by
  unfold offset
  split
  · omega
  · rename_i hfits
    unfold Wraps at hfits
    omega

/-- What a consumer reads is in its record, and that is inside of the buffer. -/
theorem Follows.inside (inv : Inv c tr cfg) {t : ι} {l : Local} {first k : Nat}
    (h : Follows c tr t cfg.shared.buffer l first k) {x : Nat} (hx : x ∈ touched c l) :
    x < c.toNat := by
  have hok := h.ok
  cases l with
  | readHeader readPos =>
    obtain ⟨rfl, hlt⟩ := hok
    have hfits := (inv.fit k _ (List.getElem?_eq_getElem hlt)).1
    have hx := mem_header hx
    rw [corrected, PowTwo.toNat_and_mask, position, toNat_ofNat_mod] at hx
    omega
  | callback start readPos off size read =>
    obtain ⟨-, -, payload, hp, rfl, hoff, -⟩ := hok
    have hsize := toNat_headerOf (inv.fit k payload hp).2
    simp only [touched] at hx
    split at hx
    · rename_i hlt
      -- the record ends at most one lap after its start
      have hbounds := record_bounds (c := c) le_rfl hp
      have hlap := h.kept.lap
      obtain rfl := List.mem_singleton.mp hx
      rw [hoff]
      refine offset_add_lt ?_ (hsize ▸ hlt)
      unfold advance at hbounds
      omega
    · exact absurd hx List.not_mem_nil
  | ready readPos => exact absurd hx List.not_mem_nil
  | readWriterPos readPos => exact absurd hx List.not_mem_nil
  | advance readPos size => exact absurd hx List.not_mem_nil
  | idle => exact hok.elim
  | loadPos payload => exact hok.elim
  | writeHeader payload pos => exact hok.elim
  | writePayload payload pos i => exact hok.elim

omit [DecidableEq ι] in
/-- The writer writes where there is room. -/
theorem writer_inside {recs : List (List Byte)}
    (hw : WriterOk c recs cfg.shared (cfg.threads none))
    (allowed : Disciplined c cfg (none, .step)) {x : Nat}
    (hx : x ∈ touched c (cfg.threads none)) : x < c.toNat := by
  have hroom := allowed rfl
  cases hl : cfg.threads none with
  | writeHeader payload pos =>
    rw [hl] at hx hroom
    have hroom : Room c cfg payload pos := hroom _ rfl
    have hfits := hroom.1.1
    have hx := mem_header hx
    rw [corrected, PowTwo.toNat_and_mask] at hx
    omega
  | writePayload payload pos i =>
    rw [hl] at hx hroom
    have hroom : Room c cfg payload pos := hroom _ rfl
    simp only [touched] at hx
    split at hx
    · rename_i hlt
      obtain rfl := List.mem_singleton.mp hx
      rw [place_fst pos hroom.1.len]
      exact offset_add_lt hroom.2.1 hlt
    · exact absurd hx List.not_mem_nil
  | idle =>
    rw [hl] at hx
    exact absurd hx List.not_mem_nil
  | loadPos payload =>
    rw [hl] at hx
    exact absurd hx List.not_mem_nil
  | _ =>
    rw [hl] at hw
    exact hw.elim

end

end HopeThreading.SpmcBoundedNonUniformQueue
