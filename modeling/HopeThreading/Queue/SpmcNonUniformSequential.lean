import HopeThreading.Queue.SpmcNonUniformRecords
import HopeThreading.Transition.Sequence

namespace HopeThreading.SpmcBoundedNonUniformQueue

open Memory Transition Words

/-!
# `spmc_bounded_non_uniform_queue` — one record at a time

A sequence of records, each read by a consumer before the next one is written.  A wrapped
payload that is longer than the offset of its header overwrites the header: `storedSize` is
what the header says after the payload was written, and a record survives exactly when that is
its size (`roundTrip_iff`).

`RecordIn` says which bytes a record of some size at some position takes, and `recordIn_iff`
when these are inside of the buffer.
-/

variable {c : PowTwo 64}

/-! ### What is left of the header -/

/-- Byte `i` of the header of a record at `pos`, after its payload was written. -/
def storedByte (c : PowTwo 64) (pos : Nat) (payload : List Byte) (i : Nat) : Byte :=
  if Wraps c pos payload.length then
    payload[pos % c.toNat + i]?.getD (byteOf (headerOf payload) i)
  else byteOf (headerOf payload) i

/-- The size that these bytes make. -/
def storedSize (c : PowTwo 64) (pos : Nat) (payload : List Byte) : BitVec 32 :=
  ofBytes (storedByte c pos payload)

/-- What `seirialize` leaves in the buffer: the size, and over it the payload. -/
theorem buffer_seirialize (q : Shared) {payload : List Byte} (hlen : payload.length + 4 ≤ 2 ^ 63)
    (a : Nat) : (seirialize c q payload).buffer a =
      store (writeSize q.buffer (headerOf payload) (q.writerPos.toNat % c.toNat))
        (offset c q.writerPos.toNat payload.length) payload a := by
  simp only [seirialize, place_fst _ hlen, corrected, PowTwo.toNat_and_mask]

/-- The four bytes at the position of the record, after the payload was stored. -/
theorem buffer_header (q : Shared) {payload : List Byte} (hlen : payload.length + 4 ≤ 2 ^ 63)
    {i : Nat} (hi : i < 4) :
    (seirialize c q payload).buffer (q.writerPos.toNat % c.toNat + i) =
      storedByte c q.writerPos.toNat payload i := by
  have hheader := writeSize_byte q.buffer (headerOf payload) (q.writerPos.toNat % c.toNat) hi
  rw [buffer_seirialize q hlen]
  unfold storedByte offset
  by_cases hw : Wraps c q.writerPos.toNat payload.length
  · rw [if_pos hw, if_pos hw, store, if_pos (Nat.zero_le _), hheader, Nat.sub_zero]
  · rw [if_neg hw, if_neg hw, store_outside _ (.inl (by omega)), hheader]

/-- What a consumer at the start of the record reads in the header. -/
theorem readSize_seirialize (q : Shared) {payload : List Byte}
    (hlen : payload.length + 4 ≤ 2 ^ 63) :
    readSize (seirialize c q payload).buffer (corrected c q.writerPos).toNat =
      storedSize c q.writerPos.toNat payload := by
  rw [readSize, storedSize, ofBytes_eq_iff]
  intro i hi
  rw [corrected, PowTwo.toNat_and_mask, buffer_header q hlen hi, byteOf_ofBytes _ hi]

/-- The queue as constructed. -/
def Shared.init (raw : Bytes) : Shared where
  writerPos := 0#64
  buffer := raw

/-! ### The bytes of a record -/

/-- The offsets of the header of a record. -/
def headerOffsets (c : PowTwo 64) (pos : BitVec 64) : List Nat :=
  (List.range 4).map fun i => (corrected c pos).toNat + i

/-- The offsets of the payload range that is handed out for a size. -/
def payloadOffsets (c : PowTwo 64) (pos size : BitVec 64) : List Nat :=
  (List.range size.toNat).map fun i => (place c pos size).1.toNat + i

/-- The accesses for a record of the given size at `pos` are inside of the buffer. -/
def RecordIn (c : PowTwo 64) (pos size : BitVec 64) : Prop :=
  ∀ a ∈ headerOffsets c pos ++ payloadOffsets c pos size, a < c.toNat

/-- The size is written inside the ring exactly when it does not cross its end. -/
theorem headerOffsets_lt_iff (pos : BitVec 64) :
    (∀ a ∈ headerOffsets c pos, a < c.toNat) ↔ pos.toNat % c.toNat + 4 ≤ c.toNat := by
  unfold headerOffsets corrected
  rw [PowTwo.toNat_and_mask]
  constructor
  · intro h
    have := h (pos.toNat % c.toNat + 3) (List.mem_map.mpr ⟨3, by simp, rfl⟩)
    omega
  · intro h a ha
    obtain ⟨i, hi, rfl⟩ := List.mem_map.mp ha
    have := List.mem_range.mp hi
    omega

/-- A payload range is inside of the buffer when it is no longer than the buffer. -/
theorem payloadOffsets_lt_iff (pos : BitVec 64) {len : Nat} (hlen : len + 4 ≤ 2 ^ 63) :
    (∀ a ∈ payloadOffsets c pos (BitVec.ofNat 64 len), a < c.toNat) ↔ len ≤ c.toNat := by
  have hnat : (BitVec.ofNat 64 len).toNat = len := by
    rw [BitVec.toNat_ofNat, Nat.mod_eq_of_lt (by omega)]
  have hpos := c.toNat_pos
  unfold payloadOffsets
  rw [place_fst pos hlen, hnat]
  constructor
  · intro h
    by_contra hgt
    have hw : Wraps c pos.toNat len := by unfold Wraps; omega
    have := h c.toNat (List.mem_map.mpr ⟨c.toNat, List.mem_range.mpr (by omega), by
      rw [offset, if_pos hw, Nat.zero_add]⟩)
    omega
  · intro h a ha
    obtain ⟨i, hi, rfl⟩ := List.mem_map.mp ha
    have := List.mem_range.mp hi
    unfold offset
    split
    · omega
    · rename_i hw
      have : pos.toNat % c.toNat + len + 4 ≤ c.toNat := Nat.not_lt.mp hw
      omega

/-- A record is inside the ring exactly when its size does not cross the end and its payload is no
    longer than the ring. -/
theorem recordIn_iff (pos : BitVec 64) {len : Nat} (hlen : len + 4 ≤ 2 ^ 63) :
    RecordIn c pos (BitVec.ofNat 64 len) ↔
      pos.toNat % c.toNat + 4 ≤ c.toNat ∧ len ≤ c.toNat := by
  rw [← headerOffsets_lt_iff, ← payloadOffsets_lt_iff pos hlen]
  exact List.forall_mem_append

/-! ### The round trip -/

/-- A consumer at the start of the record is handed what was written, and is then at the
    position of the writer again. -/
structure RoundTrip (c : PowTwo 64) (q : Shared) (payload : List Byte) : Prop where
  headerFits : q.writerPos.toNat % c.toNat + 4 ≤ c.toNat
  read : ∃ size, tryDeserialize c (seirialize c q payload) q.writerPos =
    some ((size, payload), (seirialize c q payload).writerPos) ∧ size.toNat = payload.length

/-- The payload does not change the header: it does not wrap to it, or has the same bytes
    there. -/
def HeaderKept (c : PowTwo 64) (pos : Nat) (payload : List Byte) : Prop :=
  payload.length < 2 ^ 32 ∧ (Wraps c pos payload.length →
    ∀ i < 4, ∀ b ∈ payload[pos % c.toNat + i]?, b = byteOf (headerOf payload) i)

instance (pos : Nat) (payload : List Byte) : Decidable (HeaderKept c pos payload) :=
  inferInstanceAs (Decidable (_ ∧ (_ → ∀ i < 4, ∀ b ∈ payload[pos % c.toNat + i]?, _)))

/-- The size survives exactly when the payload does not reach it, or has the same bytes where it
    does. -/
theorem storedSize_eq_iff {pos : Nat} {payload : List Byte} :
    storedSize c pos payload = headerOf payload ↔ (Wraps c pos payload.length →
      ∀ i < 4, ∀ b ∈ payload[pos % c.toNat + i]?, b = byteOf (headerOf payload) i) := by
  rw [storedSize, ofBytes_eq_iff]
  unfold storedByte
  by_cases hw : Wraps c pos payload.length
  · simp only [hw, forall_const]
    refine forall_congr' fun i => forall_congr' fun _ => ?_
    cases payload[pos % c.toNat + i]? <;> simp
  · simp [hw]

/-- The writer goes on by as much as the record takes. -/
theorem writerPos_seirialize (q : Shared) {payload : List Byte}
    (hlen : payload.length + 4 ≤ 2 ^ 63) : (seirialize c q payload).writerPos =
      q.writerPos + BitVec.ofNat 64 (advance c q.writerPos.toNat payload.length) :=
  place_snd q.writerPos hlen

/-- The consumer is handed what the stored size says. -/
theorem tryDeserialize_seirialize (q : Shared) {payload : List Byte}
    (hlen : payload.length + 4 ≤ c.toNat) :
    tryDeserialize c (seirialize c q payload) q.writerPos =
      let size := storedSize c q.writerPos.toNat payload
      some ((size, load (seirialize c q payload).buffer
        (place c q.writerPos (size.setWidth 64)).1.toNat size.toNat),
        (place c q.writerPos (size.setWidth 64)).2) := by
  have hhalf := c.toNat_le_half
  have hlen' : payload.length + 4 ≤ 2 ^ 63 := hlen.trans hhalf
  have hne : (seirialize c q payload).writerPos ≠ q.writerPos := by
    rw [writerPos_seirialize q hlen']
    intro heq
    have hle := advance_le q.writerPos.toNat hlen
    have hpos := lead_pos (c := c) q.writerPos.toNat payload.length
    have hnat := congrArg BitVec.toNat heq
    rw [BitVec.toNat_add, BitVec.toNat_ofNat] at hnat
    have hlt := q.writerPos.isLt
    unfold advance at hle hnat
    omega
  rw [tryDeserialize, if_neg hne]
  simp only [readSize_seirialize q hlen']

/-- The payload itself is never overwritten. -/
theorem load_seirialize (q : Shared) {payload : List Byte} (hlen : payload.length + 4 ≤ 2 ^ 63) :
    load (seirialize c q payload).buffer (offset c q.writerPos.toNat payload.length)
      payload.length = payload := by
  refine load_eq fun i b hb => ?_
  rw [buffer_seirialize q hlen]
  exact store_inside _ _ hb

/-- A record comes back exactly when its size was kept. -/
theorem roundTrip_iff_headerKept (q : Shared) {payload : List Byte}
    (hlen : payload.length + 4 ≤ c.toNat)
    (hfits : q.writerPos.toNat % c.toNat + 4 ≤ c.toNat) :
    RoundTrip c q payload ↔ HeaderKept c q.writerPos.toNat payload := by
  have hlen' : payload.length + 4 ≤ 2 ^ 63 := hlen.trans c.toNat_le_half
  have hread := tryDeserialize_seirialize (c := c) q hlen
  simp only at hread
  constructor
  · rintro ⟨-, size, hsome, hsize⟩
    rw [hread, Option.some.injEq, Prod.mk.injEq, Prod.mk.injEq] at hsome
    obtain ⟨⟨rfl, -⟩, -⟩ := hsome
    have hlt : payload.length < 2 ^ 32 := hsize ▸ BitVec.isLt _
    refine ⟨hlt, storedSize_eq_iff.mp (BitVec.eq_of_toNat_eq ?_)⟩
    rw [hsize, toNat_headerOf hlt]
  · rintro ⟨hlt, hkept⟩
    have hsize := storedSize_eq_iff.mpr hkept
    refine ⟨hfits, headerOf payload, ?_, toNat_headerOf hlt⟩
    rw [hread, hsize, setWidth_headerOf hlt, place_fst _ hlen', toNat_headerOf hlt,
      load_seirialize q hlen']
    rfl

/-- Sizes that are multiples of four keep the position one. -/
theorem four_dvd_seirialize (hc : 2 ≤ c.exp) {q : Shared} {payload : List Byte}
    (hfour : 4 ∣ payload.length) (hlen : payload.length + 4 ≤ c.toNat)
    (hpos : 4 ∣ q.writerPos.toNat) : 4 ∣ (seirialize c q payload).writerPos.toNat := by
  have hlen' : payload.length + 4 ≤ 2 ^ 63 := hlen.trans c.toNat_le_half
  have hB : 4 ∣ c.toNat := Nat.pow_dvd_pow 2 hc
  have hmod : 4 ∣ q.writerPos.toNat % c.toNat := (Nat.dvd_mod_iff hB).mpr hpos
  have hlead : 4 ∣ lead c q.writerPos.toNat payload.length := by
    unfold lead
    split
    · exact Nat.dvd_sub hB hmod
    · exact Nat.dvd_refl 4
  rw [writerPos_seirialize q hlen', BitVec.toNat_add, BitVec.toNat_ofNat, advance]
  omega

/-- **The round trip.** For every sequence of records of a multiple of four bytes that each
    fit an empty ring, each record survives exactly when each leaves its header as it is. -/
theorem roundTrip_iff (c : PowTwo 64) (hc : 3 ≤ c.exp) (raw : Bytes)
    (payloads : List (List Byte))
    (hfit : ∀ payload ∈ payloads, 4 ∣ payload.length ∧ payload.length + 4 ≤ c.toNat) :
    Along (seirialize c) (RoundTrip c) (Shared.init raw) payloads ↔
      Along (seirialize c) (fun q payload => HeaderKept c q.writerPos.toNat payload) (Shared.init raw)
        payloads := by
  have hB : 4 ∣ c.toNat := Nat.pow_dvd_pow 2 (Nat.le_of_succ_le hc)
  refine along_congr (J := fun q => 4 ∣ q.writerPos.toNat) (fun q payload hmem hpos => ?_)
    (Nat.dvd_zero 4)
  obtain ⟨hfour, hlen⟩ := hfit payload hmem
  have hmod : 4 ∣ q.writerPos.toNat % c.toNat := (Nat.dvd_mod_iff hB).mpr hpos
  have hlt := c.mod_lt q.writerPos.toNat
  exact ⟨roundTrip_iff_headerKept q hlen (by omega),
    four_dvd_seirialize (Nat.le_of_succ_le hc) hfour hlen hpos⟩

/-- Three records in a ring of sixteen bytes, the second of which wraps. -/
theorem roundTrip_iff_three :
    Along (seirialize ⟨4, by decide⟩) (RoundTrip ⟨4, by decide⟩) (Shared.init fun _ => 0#8)
      [[1#8, 2#8, 3#8, 4#8], [5#8, 6#8, 7#8, 8#8, 9#8, 10#8, 11#8, 12#8], []] :=
  (roundTrip_iff ⟨4, by decide⟩ (by decide) _ _ (by decide)).mpr (by decide)

/-- **An overwritten header.** In a ring of sixteen bytes, twelve bytes after an empty record
    wrap and are put over their own header at offset `4`. -/
theorem header_overwritten : ¬ Along (seirialize ⟨4, by decide⟩) (RoundTrip ⟨4, by decide⟩)
    (Shared.init fun _ => 0#8) [[], List.replicate 12 1#8] := by
  rintro ⟨-, ⟨-, size, hread, hsize⟩, -⟩
  rw [tryDeserialize_seirialize _ (by decide)] at hread
  obtain rfl : storedSize _ _ _ = size := congrArg (·.1.1) (Option.some.inj hread)
  exact absurd hsize (by decide)

end HopeThreading.SpmcBoundedNonUniformQueue
