import HopeThreading.Queue.SpmcNonUniformSequential
import HopeThreading.Queue.SpmcNonUniformDelivery

namespace HopeThreading.SpmcBoundedNonUniformQueue

open Memory Transition Words

/-!
# `spmc_bounded_non_uniform_queue` — consumers that fall behind

Complete calls in any order, with consumers that call `try_deserialize` as often or as seldom
as they like.  Nothing tells the writer where they are, and nothing tells them that they were
overrun: a consumer that the writer was once more than a lap ahead of may find any bytes of a
later payload at its position, and takes them for a size.

* `Reader.record` — the record that a consumer reads next, until it is overrun;
* `LagInv` — until then this record and those after it are in the buffer (`Kept`);
* `inside_of_keepsUp` — the ranges handed out to consumers that were never overrun are inside of
  the buffer;
* `inside_iff` — all ranges handed out are, exactly when each consumer that was overrun finds no
  size above that of the buffer.
-/

variable {c : PowTwo 64}

/-! ### Complete calls -/

/-- A consumer and its `m_local_read_position`.  `record` is the number of the record there,
    as long as the writer was never more than one lap ahead. -/
structure Reader where
  readPos : BitVec 64
  record : Option Nat
  deriving DecidableEq

/-- A queue, what was written to it, and its consumers in the order of their creation. -/
structure History where
  queue : Shared
  written : List (List Byte)
  readers : List Reader

/-- Nothing is written, and there is no consumer. -/
def History.init (raw : Bytes) : History where
  queue := Shared.init raw
  written := []
  readers := []

/-- The calls: the writer stores a record, a consumer is created, a consumer reads. -/
inductive Call
  | seirialize (payload : List Byte)
  | createConsumer
  | tryDeserialize (t : Nat)

/-- The consumer is overrun unless the last of the records ends at most one lap after its own. -/
def Reader.passed (c : PowTwo 64) (written : List (List Byte)) (r : Reader) : Reader :=
  { r with record := r.record.filter fun k =>
      boundary c written written.length ≤ boundary c written k + c.toNat }

/-- The consumer after its `try_deserialize`. -/
def Reader.read (c : PowTwo 64) (q : Shared) (r : Reader) : Reader :=
  match tryDeserialize c q r.readPos with
  | none => r
  | some (_, next) => { readPos := next, record := r.record.map (· + 1) }

/-- One call, with what was written so far beside the queue. -/
def History.after (c : PowTwo 64) (s : History) : Call → History
  | .seirialize payload =>
    { queue := seirialize c s.queue payload, written := s.written ++ [payload],
      readers := s.readers.map (Reader.passed c (s.written ++ [payload])) }
  | .createConsumer =>
    { s with readers := s.readers ++ [⟨s.queue.writerPos, some s.written.length⟩] }
  | .tryDeserialize t => { s with readers := s.readers.modify t (Reader.read c s.queue) }

/-- The range that the call hands to its callback is inside of the buffer. -/
def Inside (c : PowTwo 64) (s : History) : Call → Prop
  | .tryDeserialize t => ∀ r ∈ s.readers[t]?, s.queue.writerPos ≠ r.readPos →
      ∀ a ∈ payloadOffsets c r.readPos
        ((readSize s.queue.buffer (corrected c r.readPos).toNat).setWidth 64), a < c.toNat
  | _ => True

/-- If the consumer was overrun, the four bytes at its position are not a number above the
    size of the buffer. -/
def Plausible (c : PowTwo 64) (s : History) : Call → Prop
  | .tryDeserialize t => ∀ r ∈ s.readers[t]?, r.record = none → s.queue.writerPos ≠ r.readPos →
      (ofBytes fun i => s.queue.buffer (r.readPos.toNat % c.toNat + i)).toNat ≤ c.toNat
  | _ => True

instance (s : History) : (a : Call) → Decidable (Plausible c s a)
  | .seirialize _ | .createConsumer => isTrue trivial
  | .tryDeserialize t => inferInstanceAs (Decidable (∀ r ∈ s.readers[t]?, _ → _ → _ ≤ _))

/-- A read finds nothing, or takes a record and goes on behind it. -/
theorem Reader.read_cases (q : Shared) (r : Reader) :
    r.read c q = r ∨ q.writerPos ≠ r.readPos ∧ r.read c q =
      ⟨(place c r.readPos ((readSize q.buffer (corrected c r.readPos).toNat).setWidth 64)).2,
        r.record.map (· + 1)⟩ := by
  unfold Reader.read tryDeserialize
  by_cases heq : q.writerPos = r.readPos
  · rw [if_pos heq]
    exact .inl rfl
  · rw [if_neg heq]
    exact .inr ⟨heq, rfl⟩

/-! ### Writing a whole record -/

section

variable {pos : Nat} {payload : List Byte}

/-- A record of less than half of the buffer takes at most one lap. -/
theorem advance_le_lap (hlen : payload.length + 4 ≤ c.toNat / 2) :
    advance c pos payload.length ≤ c.toNat := by
  have hlt := c.mod_lt pos
  unfold advance lead
  split
  · rename_i hw
    have hgt : c.toNat < pos % c.toNat + payload.length + 4 := hw
    omega
  · omega

/-- What `seirialize` leaves in the buffer, by the position as a number. -/
theorem buffer_seirialize_position {q : Shared} (hpos : q.writerPos = BitVec.ofNat 64 pos)
    (hfits : Fits c pos payload) : (seirialize c q payload).buffer =
      store (writeSize q.buffer (headerOf payload) (pos % c.toNat))
        (offset c pos payload.length) payload := by
  funext a
  rw [buffer_seirialize q hfits.len, hpos, toNat_ofNat_mod, offset_ofNat]

/-- Nothing but the record is written … -/
theorem seirialize_outside {q : Shared} (hpos : q.writerPos = BitVec.ofNat 64 pos)
    (hfits : Fits c pos payload) (hlap : advance c pos payload.length ≤ c.toNat) {a : Nat}
    (ha : ¬ Owns c pos payload a) : (seirialize c q payload).buffer a = q.buffer a := by
  rw [buffer_seirialize_position hpos hfits, store_outside, writeSize_outside hfits _ ha]
  by_contra h
  refine ha ?_
  rw [show a = offset c pos payload.length + (a - offset c pos payload.length) by omega]
  exact owns_payload hlap (by omega)

/-- … its header … -/
theorem seirialize_header {q : Shared} (hpos : q.writerPos = BitVec.ofNat 64 pos)
    (hfits : Fits c pos payload) (hlap : advance c pos payload.length ≤ c.toNat) :
    HeaderAt c (seirialize c q payload).buffer pos payload := by
  intro i hi
  rw [buffer_seirialize_position hpos hfits, store_outside]
  · exact headerAt_writeSize q.buffer payload i hi
  · by_contra h
    have hlead := four_le_lead hfits
    have hadvance : lead c pos payload.length + payload.length ≤ c.toNat := hlap
    -- a byte of the payload at the address of the header is less than a lap after it
    obtain ⟨d, hd, haddr⟩ : ∃ d < payload.length,
        offset c pos payload.length + d = pos % c.toNat + i :=
      ⟨pos % c.toNat + i - offset c pos payload.length, by omega, by omega⟩
    rw [← payload_address hd (by omega), ← header_address hfits.1 hi] at haddr
    exact address_ne (by omega) (by omega) haddr.symm

/-- … and its payload. -/
theorem seirialize_payload {q : Shared} (hpos : q.writerPos = BitVec.ofNat 64 pos)
    (hfits : Fits c pos payload) :
    PayloadAt c (seirialize c q payload).buffer pos payload payload.length := by
  intro i b _ hb
  rw [buffer_seirialize_position hpos hfits]
  exact store_inside _ _ hb

end

/-! ### Consumers that were not overrun -/

/-- The invariant of a sequence of calls. -/
structure LagInv (c : PowTwo 64) (s : History) : Prop where
  pos : s.queue.writerPos = position c s.written s.written.length
  aligned : 4 ∣ boundary c s.written s.written.length
  fit : AllFit c s.written
  readers : ∀ (t : Nat) (r : Reader) k, s.readers[t]? = some r → r.record = some k →
    r.readPos = position c s.written k ∧ Kept c s.written s.queue.buffer k

/-- The invariant holds before the first call. -/
theorem LagInv.init (c : PowTwo 64) (raw : Bytes) : LagInv c (History.init raw) where
  pos := rfl
  aligned := Nat.dvd_zero 4
  fit j payload h := absurd h (by simp [History.init])
  readers t r k h := absurd h (by simp [History.init])

section

variable {s : History} {payload : List Byte}

/-- The next record keeps the alignment, and its header fits. -/
theorem LagInv.fits (h : LagInv c s) (hc : 2 ≤ c.exp) (hexp : c.exp < 32)
    (hlen : payload.length + 4 ≤ c.toNat / 2) :
    Fits c (boundary c s.written s.written.length) payload := by
  have hB : 4 ∣ c.toNat := Nat.pow_dvd_pow 2 hc
  have hmod := (Nat.dvd_mod_iff hB).mpr h.aligned
  have hlt := c.mod_lt (boundary c s.written s.written.length)
  have hsmall : c.toNat ≤ 2 ^ 31 := Nat.pow_le_pow_right (by omega) (by omega)
  exact ⟨by omega, by omega⟩

/-- Where all sizes are multiples of four, all positions are. -/
theorem four_dvd_advance (hc : 2 ≤ c.exp) {pos : Nat} (hpos : 4 ∣ pos)
    (hfour : 4 ∣ payload.length) : 4 ∣ advance c pos payload.length := by
  have hB : 4 ∣ c.toNat := Nat.pow_dvd_pow 2 hc
  have hmod : 4 ∣ pos % c.toNat := (Nat.dvd_mod_iff hB).mpr hpos
  unfold advance lead
  split
  · exact Nat.dvd_add (Nat.dvd_sub hB hmod) hfour
  · exact Nat.dvd_add (Nat.dvd_refl 4) hfour

/-- A record that is stored keeps the invariant: a reader it runs over is overrun, the others keep
    theirs. -/
theorem LagInv.seirialize (h : LagInv c s) (hc : 2 ≤ c.exp) (hexp : c.exp < 32)
    (hfour : 4 ∣ payload.length) (hlen : payload.length + 4 ≤ c.toNat / 2) :
    LagInv c (s.after c (.seirialize payload)) := by
  have hfits := h.fits hc hexp hlen
  have hlap : advance c (boundary c s.written s.written.length) payload.length ≤ c.toNat :=
    advance_le_lap hlen
  have hlast : (s.written ++ [payload])[s.written.length]? = some payload := by simp
  have hlength : (s.written ++ [payload]).length = s.written.length + 1 := by simp
  have hend : boundary c (s.written ++ [payload]) (s.written ++ [payload]).length =
      boundary c s.written s.written.length +
        advance c (boundary c s.written s.written.length) payload.length := by
    rw [hlength, boundary_succ hlast, boundary_append le_rfl]
  refine ⟨?_, ?_, fun j p hp => ?_, fun t r k ht hk => ?_⟩
  · show (SpmcBoundedNonUniformQueue.seirialize c s.queue payload).writerPos =
      position c (s.written ++ [payload]) (s.written ++ [payload]).length
    rw [writerPos_seirialize _ hfits.len, h.pos, position, advance_ofNat, ← BitVec.ofNat_add,
      position, hend]
  · show 4 ∣ boundary c (s.written ++ [payload]) (s.written ++ [payload]).length
    rw [hend]
    exact Nat.dvd_add h.aligned (four_dvd_advance hc h.aligned hfour)
  · show Fits c (boundary c (s.written ++ [payload]) j) p
    rcases record_cases (c := c) hp with ⟨hp, hb⟩ | ⟨rfl, hb⟩
    · rw [hb]; exact h.fit j p hp
    · rw [hb]; exact hfits
  · obtain ⟨r, hr, rfl⟩ := Option.map_eq_some_iff.mp ((List.getElem?_map ..).symm.trans ht)
    obtain ⟨hrecord, hroom⟩ := Option.filter_eq_some_iff.mp hk
    obtain ⟨hpos, hkept⟩ := h.readers t r k hr hrecord
    have hroom := of_decide_eq_true hroom
    rw [hend, boundary_append hkept.le] at hroom
    refine ⟨hpos.trans (position_append hkept.le _).symm, ?_⟩
    apply Kept.publish (hkept.write h.fit hroom fun a ha => seirialize_outside h.pos hfits hlap ha)
      hroom
    · exact seirialize_header h.pos hfits hlap
    · exact seirialize_payload h.pos hfits

/-- A consumer is created where the writer stands, with nothing to come. -/
theorem LagInv.createConsumer (h : LagInv c s) : LagInv c (s.after c .createConsumer) := by
  refine ⟨h.pos, h.aligned, h.fit, fun t r k ht hk => ?_⟩
  replace ht : (s.readers ++ [⟨s.queue.writerPos, some s.written.length⟩])[t]? = some r := ht
  rcases Nat.lt_trichotomy t s.readers.length with hlt | rfl | hgt
  · rw [List.getElem?_append_left hlt] at ht
    exact h.readers t r k ht hk
  · rw [List.getElem?_concat_length] at ht
    cases ht
    cases hk
    exact ⟨h.pos, Kept.created _ _⟩
  · rw [List.getElem?_eq_none (by simp; omega)] at ht
    exact absurd ht (by simp)

/-- A consumer that was not overrun finds the header of its record … -/
theorem LagInv.header (h : LagInv c s) {t k : Nat} {r : Reader} (ht : s.readers[t]? = some r)
    (hk : r.record = some k) (hne : s.queue.writerPos ≠ r.readPos) :
    ∃ payload, s.written[k]? = some payload ∧ Fits c (boundary c s.written k) payload ∧
      readSize s.queue.buffer (corrected c r.readPos).toNat = headerOf payload := by
  obtain ⟨hpos, hkept⟩ := h.readers t r k ht hk
  have hlt : k < s.written.length := by
    refine Nat.lt_of_le_of_ne hkept.le fun heq => hne ?_
    rw [h.pos, hpos, heq]
  have hrec := List.getElem?_eq_getElem hlt
  exact ⟨_, hrec, h.fit k _ hrec, hpos ▸ readSize_headerAt (hkept.header k _ le_rfl hrec)⟩

/-- … and goes on to the next one. -/
theorem LagInv.tryDeserialize (h : LagInv c s) (t : Nat) :
    LagInv c (s.after c (.tryDeserialize t)) := by
  refine ⟨h.pos, h.aligned, h.fit, fun t' r k ht hk => ?_⟩
  replace ht : (s.readers.modify t (Reader.read c s.queue))[t']? = some r := ht
  rw [List.getElem?_modify] at ht
  obtain ⟨r₀, hr₀, hr⟩ := Option.map_eq_some_iff.mp ht
  split at hr
  · rcases Reader.read_cases (c := c) s.queue r₀ with heq | ⟨hne, heq⟩ <;>
      rw [heq] at hr <;> subst hr
    · exact h.readers t' _ k hr₀ hk
    · obtain ⟨k₀, hk₀, rfl⟩ := Option.map_eq_some_iff.mp hk
      obtain ⟨payload, hrec, hfits, hsize⟩ := h.header hr₀ hk₀ hne
      obtain ⟨hpos, hkept⟩ := h.readers t' r₀ k₀ hr₀ hk₀
      refine ⟨?_, hkept.next hrec⟩
      rw [hsize, setWidth_headerOf hfits.2, hpos, place_position_snd hrec hfits]
      rfl
  · subst hr
    exact h.readers t' _ k hr₀ hk

/-- Its record is no longer than the buffer. -/
theorem LagInv.size_le (h : LagInv c s) {t k : Nat} {r : Reader} (ht : s.readers[t]? = some r)
    (hk : r.record = some k) (hne : s.queue.writerPos ≠ r.readPos) :
    (readSize s.queue.buffer (corrected c r.readPos).toNat).toNat ≤ c.toNat := by
  obtain ⟨payload, hrec, hfits, hsize⟩ := h.header ht hk hne
  obtain ⟨-, hkept⟩ := h.readers t r k ht hk
  have hlap := hkept.lap
  obtain ⟨hlow, hhigh⟩ := record_bounds (c := c) le_rfl hrec
  rw [hsize, toNat_headerOf hfits.2]
  unfold advance at hhigh
  omega

end

/-! ### All consumers -/

/-- The consumer that calls was never overrun. -/
def KeepsUp (s : History) : Call → Prop
  | .tryDeserialize t => ∀ r ∈ s.readers[t]?, r.record ≠ none
  | _ => True

section

variable {s : History}

/-- Every call keeps the invariant. -/
theorem LagInv.after (h : LagInv c s) (hc : 2 ≤ c.exp) (hexp : c.exp < 32) {a : Call}
    (hfit : ∀ payload, a = .seirialize payload →
      4 ∣ payload.length ∧ payload.length + 4 ≤ c.toNat / 2) : LagInv c (s.after c a) := by
  cases a with
  | seirialize payload =>
    obtain ⟨hfour, hlen⟩ := hfit payload rfl
    exact h.seirialize hc hexp hfour hlen
  | createConsumer => exact h.createConsumer
  | tryDeserialize t => exact h.tryDeserialize t

/-- What the header has to say for the range to be inside of the buffer.  In a ring of `2 ^ 32`
    bytes and more no header says too much. -/
theorem inside_tryDeserialize_iff {t : Nat} : Inside c s (.tryDeserialize t) ↔
    ∀ r ∈ s.readers[t]?, s.queue.writerPos ≠ r.readPos →
      (readSize s.queue.buffer (corrected c r.readPos).toNat).toNat ≤ c.toNat := by
  refine forall_congr' fun r => forall_congr' fun _ => forall_congr' fun _ => ?_
  have hlt := (readSize s.queue.buffer (corrected c r.readPos).toNat).isLt
  rw [← BitVec.ofNat_toNat, payloadOffsets_lt_iff _ (by omega)]

/-- A consumer that was never overrun finds no size above that of the buffer. -/
theorem size_le_of_keepsUp (h : c.exp < 32 → LagInv c s) {t k : Nat} {r : Reader}
    (ht : s.readers[t]? = some r) (hk : r.record = some k)
    (hne : s.queue.writerPos ≠ r.readPos) :
    (readSize s.queue.buffer (corrected c r.readPos).toNat).toNat ≤ c.toNat := by
  by_cases hexp : c.exp < 32
  · exact (h hexp).size_le ht hk hne
  · have hlt := (readSize s.queue.buffer (corrected c r.readPos).toNat).isLt
    have hlarge : 2 ^ 32 ≤ c.toNat := Nat.pow_le_pow_right (by omega) (by omega)
    omega

end

/-- **Consumers that keep up.** For every ring of at least sixteen bytes, every sequence of calls
    with records of a multiple of four bytes of which two fit the ring, and any bytes in them,
    the ranges handed out to consumers that were never overrun are inside of the buffer. -/
theorem inside_of_keepsUp (c : PowTwo 64) (hc : 4 ≤ c.exp) (raw : Bytes) (calls : List Call)
    (hfit : ∀ payload, Call.seirialize payload ∈ calls →
      4 ∣ payload.length ∧ payload.length + 4 ≤ c.toNat / 2)
    (hkeeps : Along (History.after c) KeepsUp (History.init raw) calls) :
    Along (History.after c) (Inside c) (History.init raw) calls := by
  refine hkeeps.imp (J := fun s => c.exp < 32 → LagInv c s) (fun s a hmem hinv hkeeps => ⟨?_, ?_⟩)
    fun _ => LagInv.init c raw
  · cases a with
    | seirialize payload => trivial
    | createConsumer => trivial
    | tryDeserialize t =>
      refine inside_tryDeserialize_iff.mpr fun r ht hne => ?_
      obtain ⟨k, hk⟩ := Option.ne_none_iff_exists'.mp (hkeeps r ht)
      exact size_le_of_keepsUp hinv ht hk hne
  · intro hexp
    exact (hinv hexp).after (by omega) hexp fun payload ha => hfit payload (ha ▸ hmem)

/-- **Slow consumers.** For every ring of at least sixteen bytes, every sequence of calls with
    records of a multiple of four bytes of which two fit the ring, and any bytes in them, the
    ranges handed out are inside of the buffer exactly when each consumer that was overrun
    finds a number there that is not above the size of the buffer. -/
theorem inside_iff (c : PowTwo 64) (hc : 4 ≤ c.exp) (raw : Bytes) (calls : List Call)
    (hfit : ∀ payload, Call.seirialize payload ∈ calls →
      4 ∣ payload.length ∧ payload.length + 4 ≤ c.toNat / 2) :
    Along (History.after c) (Inside c) (History.init raw) calls ↔
      Along (History.after c) (Plausible c) (History.init raw) calls := by
  refine along_congr (J := fun s => c.exp < 32 → LagInv c s) (fun s a hmem hinv => ⟨?_, ?_⟩)
    fun _ => LagInv.init c raw
  · cases a with
    | seirialize payload => exact Iff.rfl
    | createConsumer => exact Iff.rfl
    | tryDeserialize t =>
      rw [inside_tryDeserialize_iff]
      refine forall_congr' fun r => forall_congr' fun ht => ?_
      have hfound : readSize s.queue.buffer (corrected c r.readPos).toNat =
          ofBytes fun i => s.queue.buffer (r.readPos.toNat % c.toNat + i) := by
        rw [readSize, corrected, PowTwo.toNat_and_mask]
      rw [← hfound]
      refine ⟨fun h _ hne => h hne, fun h hne => ?_⟩
      -- a consumer that was not overrun needs no condition
      cases hk : r.record with
      | none => exact h hk hne
      | some k => exact size_le_of_keepsUp hinv ht hk hne
  · intro hexp
    exact (hinv hexp).after (by omega) hexp fun payload ha => hfit payload (ha ▸ hmem)

/-- A consumer that keeps up, in a ring of sixteen bytes. -/
theorem inside_iff_two :
    Along (History.after ⟨4, by decide⟩) (Inside ⟨4, by decide⟩) (History.init fun _ => 0#8)
      [.createConsumer, .seirialize [1#8, 2#8, 3#8, 4#8], .tryDeserialize 0, .seirialize [],
        .seirialize [5#8, 6#8, 7#8, 8#8], .tryDeserialize 0, .tryDeserialize 0] :=
  (inside_iff ⟨4, by decide⟩ (by decide) _ _ (by simp [PowTwo.toNat])).mpr (by decide)

/-- **An overrun consumer.** In a ring of sixteen bytes, the payload of the third record is
    where the consumer expects the header of the first, and says `2 ^ 32 - 1` bytes. -/
theorem outside_overrun : ¬ Along (History.after ⟨4, by decide⟩) (Inside ⟨4, by decide⟩)
    (History.init fun _ => 0#8) [.createConsumer, .seirialize [],
      .seirialize (List.replicate 4 1#8), .seirialize (List.replicate 4 255#8),
      .tryDeserialize 0] := by
  rintro ⟨-, -, -, -, hread, -⟩
  have hin := hread ⟨0#64, none⟩ (by decide) (by decide) 16
  refine absurd (hin (List.mem_map.mpr ⟨16, List.mem_range.mpr ?_, by decide⟩)) (by decide)
  decide

end HopeThreading.SpmcBoundedNonUniformQueue
