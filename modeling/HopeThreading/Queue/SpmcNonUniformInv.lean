import HopeThreading.Queue.SpmcNonUniformRecords

namespace HopeThreading.SpmcBoundedNonUniformQueue

open Memory Words

/-!
# `spmc_bounded_non_uniform_queue` — the records in the ring

`boundary recs k` is the position behind the first `k` of the records `recs`, counted without
wrapping around the word.  A consumer that reads record `k` next depends on the records from
`k` on being in the buffer (`Kept`).  The writer changes only bytes of the positions of the
record it writes (`Owns`), so they stay there while the end of that record is at most one
lap ahead of `boundary recs k` (`Kept.write`).
-/

variable {c : PowTwo 64}

/-! ### Boundaries -/

/-- The position after the first `k` records. -/
def boundary (c : PowTwo 64) (recs : List (List Byte)) (k : Nat) : Nat :=
  (recs.take k).foldl (fun pos payload => pos + advance c pos payload.length) 0

/-- The position after the first `k` records, as the code has it. -/
def position (c : PowTwo 64) (recs : List (List Byte)) (k : Nat) : BitVec 64 :=
  BitVec.ofNat 64 (boundary c recs k)

section

variable {recs : List (List Byte)} {k : Nat} {payload : List Byte}

/-- The next boundary. -/
theorem boundary_succ (hk : recs[k]? = some payload) :
    boundary c recs (k + 1) =
      boundary c recs k + advance c (boundary c recs k) payload.length := by
  simp [boundary, List.take_add_one, hk]

/-- More records do not move the boundaries before them … -/
theorem boundary_append (hk : k ≤ recs.length) (more : List (List Byte)) :
    boundary c (recs ++ more) k = boundary c recs k := by
  rw [boundary, boundary, List.take_append_of_le_length hk]

/-- … nor these as the code has them. -/
theorem position_append (hk : k ≤ recs.length) (more : List (List Byte)) :
    position c (recs ++ more) k = position c recs k := by
  rw [position, position, boundary_append hk]

/-- Boundaries grow. -/
theorem boundary_lt {j : Nat} (hkj : k < j) (hj : j ≤ recs.length) :
    boundary c recs k < boundary c recs j := by
  induction j with
  | zero => exact absurd hkj (Nat.not_lt_zero _)
  | succ j ih =>
    rw [boundary_succ (List.getElem?_eq_getElem hj)]
    have hpos := lead_pos (c := c) (boundary c recs j) recs[j].length
    rcases Nat.lt_or_eq_of_le (Nat.le_of_lt_succ hkj) with hlt | rfl
    · have := ih hlt (Nat.le_of_succ_le hj)
      unfold advance
      omega
    · unfold advance
      omega

/-- Boundaries do not fall. -/
theorem boundary_le {j : Nat} (hkj : k ≤ j) (hj : j ≤ recs.length) :
    boundary c recs k ≤ boundary c recs j := by
  rcases Nat.lt_or_eq_of_le hkj with hlt | rfl
  · exact (boundary_lt hlt hj).le
  · exact le_rfl

end

/-- The place of a record depends on its position modulo the size only. -/
theorem wraps_ofNat (pos len : Nat) : Wraps c (BitVec.ofNat 64 pos).toNat len ↔ Wraps c pos len := by
  unfold Wraps
  rw [toNat_ofNat_mod]

/-- The offset of a payload depends on the position modulo the size only … -/
theorem offset_ofNat (pos len : Nat) :
    offset c (BitVec.ofNat 64 pos).toNat len = offset c pos len := by
  simp only [offset, wraps_ofNat, toNat_ofNat_mod]

/-- … and so does what the record takes. -/
theorem advance_ofNat (pos len : Nat) :
    advance c (BitVec.ofNat 64 pos).toNat len = advance c pos len := by
  simp only [advance, lead, wraps_ofNat, toNat_ofNat_mod]

/-! ### A record in the buffer -/

/-- The header does not cross the end of the buffer, and holds the size. -/
def Fits (c : PowTwo 64) (pos : Nat) (payload : List Byte) : Prop :=
  pos % c.toNat + 4 ≤ c.toNat ∧ payload.length < 2 ^ 32

/-- The header of a record at `pos` is in the buffer. -/
def HeaderAt (c : PowTwo 64) (buffer : Bytes) (pos : Nat) (payload : List Byte) : Prop :=
  ∀ i, i < 4 → buffer (pos % c.toNat + i) = byteOf (headerOf payload) i

/-- The first `n` bytes of its payload are in the buffer. -/
def PayloadAt (c : PowTwo 64) (buffer : Bytes) (pos : Nat) (payload : List Byte) (n : Nat) : Prop :=
  ∀ i b, i < n → payload[i]? = some b → buffer (offset c pos payload.length + i) = b

/-- Address `a` belongs to the record. -/
def Owns (c : PowTwo 64) (pos : Nat) (payload : List Byte) (a : Nat) : Prop :=
  ∃ d, d < advance c pos payload.length ∧ a = (pos + d) % c.toNat

section

variable {pos : Nat} {payload : List Byte}

/-- A record that fits is far from wrapping the words of the code. -/
theorem Fits.len (h : Fits c pos payload) : payload.length + 4 ≤ 2 ^ 63 := by
  have := h.2
  omega

/-- The payload begins behind the header. -/
theorem four_le_lead (h : Fits c pos payload) : 4 ≤ lead c pos payload.length := by
  have := h.1
  unfold lead
  split <;> omega

/-- The bytes of the header belong to the record … -/
theorem owns_header (h : Fits c pos payload) {i : Nat} (hi : i < 4) :
    Owns c pos payload (pos % c.toNat + i) := by
  have := four_le_lead h
  exact ⟨i, by unfold advance; omega, (header_address h.1 hi).symm⟩

/-- … and so do those of the payload, if the record takes no more than one lap. -/
theorem owns_payload (hlap : advance c pos payload.length ≤ c.toNat) {i : Nat}
    (hi : i < payload.length) : Owns c pos payload (offset c pos payload.length + i) := by
  refine ⟨lead c pos payload.length + i, by unfold advance; omega, (payload_address hi ?_).symm⟩
  unfold advance at hlap
  omega

/-- Records within one lap have no address in common. -/
theorem not_owns {pos' : Nat} {payload' : List Byte} {a : Nat}
    (hafter : pos + advance c pos payload.length ≤ pos')
    (hlap : pos' + advance c pos' payload'.length ≤ pos + c.toNat) (ha : Owns c pos payload a) :
    ¬ Owns c pos' payload' a := by
  rintro ⟨d', hd', heq⟩
  obtain ⟨d, hd, rfl⟩ := ha
  exact address_ne (c := c) (a := pos + d) (b := pos' + d') (by omega) (by omega) heq

/-- A record stays while none of its addresses is written. -/
theorem HeaderAt.congr {buffer buffer' : Bytes} (h : HeaderAt c buffer pos payload)
    (hfits : Fits c pos payload) (hsame : ∀ a, Owns c pos payload a → buffer' a = buffer a) :
    HeaderAt c buffer' pos payload := fun i hi => by
  rw [hsame _ (owns_header hfits hi), h i hi]

/-- The same for its payload. -/
theorem PayloadAt.congr {buffer buffer' : Bytes} {n : Nat} (h : PayloadAt c buffer pos payload n)
    (hlap : advance c pos payload.length ≤ c.toNat)
    (hsame : ∀ a, Owns c pos payload a → buffer' a = buffer a) :
    PayloadAt c buffer' pos payload n := fun i b hi hb => by
  rw [hsame _ (owns_payload hlap (List.getElem?_eq_some_iff.mp hb).1), h i b hi hb]

/-! ### Writing a record -/

/-- The header is written, and nothing else. -/
theorem headerAt_writeSize (buffer : Bytes) (payload : List Byte) :
    HeaderAt c (writeSize buffer (headerOf payload) (pos % c.toNat)) pos payload :=
  fun _ hi => writeSize_byte _ _ _ hi

/-- Writing the header changes no byte that does not belong to the record. -/
theorem writeSize_outside (hfits : Fits c pos payload) (buffer : Bytes) {a : Nat}
    (ha : ¬ Owns c pos payload a) :
    writeSize buffer (headerOf payload) (pos % c.toNat) a = buffer a := by
  refine store_outside _ ?_
  by_contra h
  have hlen : ((List.range 4).map (byteOf (headerOf payload))).length = 4 := by simp
  rw [hlen] at h
  refine ha ?_
  rw [show a = pos % c.toNat + (a - pos % c.toNat) by omega]
  exact owns_header hfits (by omega)

/-- One more byte of the payload is written, and nothing else. -/
theorem payloadAt_store {buffer : Bytes} {i : Nat} {b : Byte} (hb : payload[i]? = some b)
    (h : PayloadAt c buffer pos payload i) :
    PayloadAt c (store buffer (offset c pos payload.length + i) [b]) pos payload (i + 1) := by
  intro j b' hj hb'
  rcases Nat.lt_or_eq_of_le (Nat.le_of_lt_succ hj) with hlt | rfl
  · rw [store_outside _ (.inl (by omega))]
    exact h j b' hlt hb'
  · rw [← Option.some.inj (hb.symm.trans hb')]
    exact store_inside buffer _ (i := 0) rfl

/-- Writing a byte of the payload changes no other one. -/
theorem store_payload_outside (hlap : advance c pos payload.length ≤ c.toNat) (buffer : Bytes)
    {i : Nat} {b : Byte} (hb : payload[i]? = some b) {a : Nat} (ha : ¬ Owns c pos payload a) :
    store buffer (offset c pos payload.length + i) [b] a = buffer a := by
  refine store_outside _ ?_
  by_contra h
  rw [List.length_singleton] at h
  refine ha ?_
  rw [show a = offset c pos payload.length + i by omega]
  exact owns_payload hlap (List.getElem?_eq_some_iff.mp hb).1

/-- The payload does not reach the header of its own record. -/
theorem headerAt_store {buffer : Bytes} (hfits : Fits c pos payload)
    (hlap : advance c pos payload.length ≤ c.toNat) {i : Nat} {b : Byte}
    (hb : payload[i]? = some b) (h : HeaderAt c buffer pos payload) :
    HeaderAt c (store buffer (offset c pos payload.length + i) [b]) pos payload := by
  intro j hj
  have hi := (List.getElem?_eq_some_iff.mp hb).1
  have hlead := four_le_lead hfits
  have hne : pos % c.toNat + j ≠ offset c pos payload.length + i := by
    unfold advance at hlap
    rw [← header_address hfits.1 hj, ← payload_address hi (by omega)]
    exact address_ne (by omega) (by omega)
  rw [store_outside _ (by rw [List.length_singleton]; omega)]
  exact h j hj

end

/-! ### What a consumer depends on -/

/-- The header of each record fits. -/
def AllFit (c : PowTwo 64) (recs : List (List Byte)) : Prop :=
  ∀ j payload, recs[j]? = some payload → Fits c (boundary c recs j) payload

/-- The records from `k` on are in the buffer. -/
structure Kept (c : PowTwo 64) (recs : List (List Byte)) (buffer : Bytes) (k : Nat) : Prop where
  le : k ≤ recs.length
  /-- The writer is at most one lap ahead. -/
  lap : boundary c recs recs.length ≤ boundary c recs k + c.toNat
  header : ∀ j payload, k ≤ j → recs[j]? = some payload →
    HeaderAt c buffer (boundary c recs j) payload
  payload : ∀ j payload, k ≤ j → recs[j]? = some payload →
    PayloadAt c buffer (boundary c recs j) payload payload.length

section

variable {recs : List (List Byte)} {buffer buffer' : Bytes} {k : Nat} {payload : List Byte}

/-- A record from `k` on is between the boundary `k` and the writer. -/
theorem record_bounds {j : Nat} {p : List Byte} (hj : k ≤ j) (hp : recs[j]? = some p) :
    boundary c recs k ≤ boundary c recs j ∧ boundary c recs j + advance c (boundary c recs j)
      p.length ≤ boundary c recs recs.length := by
  have hlt := (List.getElem?_eq_some_iff.mp hp).1
  rw [← boundary_succ hp]
  exact ⟨boundary_le hj hlt.le, boundary_le hlt le_rfl⟩

/-- The writer may write a record that ends at most one lap after `boundary recs k`. -/
theorem Kept.write (h : Kept c recs buffer k) (hfit : AllFit c recs)
    (hroom : boundary c recs recs.length + advance c (boundary c recs recs.length) payload.length ≤
      boundary c recs k + c.toNat)
    (hsame : ∀ a, ¬ Owns c (boundary c recs recs.length) payload a → buffer' a = buffer a) :
    Kept c recs buffer' k := by
  have hkeep : ∀ j p, k ≤ j → recs[j]? = some p → ∀ a, Owns c (boundary c recs j) p a →
      buffer' a = buffer a := fun j p hj hp a ha => by
    obtain ⟨hlow, hhigh⟩ := record_bounds (c := c) hj hp
    exact hsame a (not_owns hhigh (by omega) ha)
  refine ⟨h.le, h.lap, fun j p hj hp => ?_, fun j p hj hp => ?_⟩
  · exact (h.header j p hj hp).congr (hfit j p hp) (hkeep j p hj hp)
  · obtain ⟨hlow, hhigh⟩ := record_bounds (c := c) hj hp
    have := h.lap
    exact (h.payload j p hj hp).congr (by omega) (hkeep j p hj hp)

/-- After one more record each record is an old one, at the boundary it had, or the new one. -/
theorem record_cases {j : Nat} {p : List Byte} (hp : (recs ++ [payload])[j]? = some p) :
    (recs[j]? = some p ∧ boundary c (recs ++ [payload]) j = boundary c recs j) ∨
      (p = payload ∧ boundary c (recs ++ [payload]) j = boundary c recs recs.length) := by
  rcases Nat.lt_trichotomy j recs.length with hlt | rfl | hgt
  · rw [List.getElem?_append_left hlt] at hp
    exact .inl ⟨hp, boundary_append hlt.le _⟩
  · rw [List.getElem?_concat_length] at hp
    exact .inr ⟨(Option.some.inj hp).symm, boundary_append le_rfl _⟩
  · rw [List.getElem?_eq_none (by rw [List.length_append, List.length_singleton]; omega)] at hp
    exact absurd hp (by simp)

/-- The record that was written is published. -/
theorem Kept.publish (h : Kept c recs buffer k)
    (hroom : boundary c recs recs.length + advance c (boundary c recs recs.length) payload.length ≤
      boundary c recs k + c.toNat)
    (hheader : HeaderAt c buffer (boundary c recs recs.length) payload)
    (hpayload : PayloadAt c buffer (boundary c recs recs.length) payload payload.length) :
    Kept c (recs ++ [payload]) buffer k := by
  have hlast : (recs ++ [payload])[recs.length]? = some payload := by simp
  refine ⟨by have := h.le; simp; omega, ?_, fun j p hj hp => ?_, fun j p hj hp => ?_⟩
  · rw [List.length_append, List.length_singleton, boundary_succ hlast,
      boundary_append le_rfl, boundary_append h.le]
    exact hroom
  · rcases record_cases (c := c) hp with ⟨hp, hb⟩ | ⟨rfl, hb⟩
    · rw [hb]; exact h.header j p hj hp
    · rw [hb]; exact hheader
  · rcases record_cases (c := c) hp with ⟨hp, hb⟩ | ⟨rfl, hb⟩
    · rw [hb]; exact h.payload j p hj hp
    · rw [hb]; exact hpayload

/-- The consumer has finished with a record. -/
theorem Kept.next (h : Kept c recs buffer k) (hk : recs[k]? = some payload) :
    Kept c recs buffer (k + 1) := by
  have hlt := (List.getElem?_eq_some_iff.mp hk).1
  have hle : boundary c recs k ≤ boundary c recs (k + 1) := boundary_le (Nat.le_succ k) hlt
  exact ⟨hlt, by have := h.lap; omega, fun j p hj => h.header j p (by omega),
    fun j p hj => h.payload j p (by omega)⟩

/-- A consumer that is created now depends on nothing yet. -/
theorem Kept.created (recs : List (List Byte)) (buffer : Bytes) :
    Kept c recs buffer recs.length := by
  refine ⟨le_rfl, Nat.le_add_right _ _, fun j p hj hp => ?_, fun j p hj hp => ?_⟩
  all_goals
    rw [List.getElem?_eq_none hj] at hp
    exact absurd hp (by simp)

/-- The distance to the writer in the code's arithmetic. -/
theorem Kept.distance (h : Kept c recs buffer k) :
    (position c recs recs.length - position c recs k).toNat + boundary c recs k =
      boundary c recs recs.length := by
  have hle := boundary_le (c := c) h.le le_rfl
  have hlap := h.lap
  have hlt := c.toNat_lt
  unfold position
  rw [BitVec.toNat_sub, BitVec.toNat_ofNat, BitVec.toNat_ofNat]
  omega

/-- A consumer whose position is that of the writer has read everything. -/
theorem Kept.eq_of_position (h : Kept c recs buffer k)
    (heq : position c recs k = position c recs recs.length) : k = recs.length := by
  have hdist := h.distance
  rw [heq, BitVec.sub_self, BitVec.toNat_zero, Nat.zero_add] at hdist
  by_contra hne
  have := boundary_lt (c := c) (Nat.lt_of_le_of_ne h.le hne) le_rfl
  omega

end

/-! ### The threads -/

/-- The writer; the bytes of its record count only while the record takes at most one lap. -/
def WriterOk (c : PowTwo 64) (recs : List (List Byte)) (q : Shared) : Local → Prop
  | .idle | .loadPos _ => True
  | .writeHeader _ pos => pos = q.writerPos
  | .writePayload payload pos i => pos = q.writerPos ∧
      Fits c (boundary c recs recs.length) payload ∧ i ≤ payload.length ∧
      (advance c (boundary c recs recs.length) payload.length ≤ c.toNat →
        HeaderAt c q.buffer (boundary c recs recs.length) payload ∧
        PayloadAt c q.buffer (boundary c recs recs.length) payload i)
  | _ => False

/-- A consumer that reads record `k` next. -/
def ConsumerOk (c : PowTwo 64) (recs : List (List Byte)) (k : Nat) : Local → Prop
  | .ready readPos | .readWriterPos readPos => readPos = position c recs k
  | .readHeader readPos => readPos = position c recs k ∧ k < recs.length
  | .advance readPos size => readPos = position c recs k ∧
      ∃ payload, recs[k]? = some payload ∧ size = headerOf payload
  | .callback start readPos off size read => start = position c recs k ∧
      readPos = position c recs (k + 1) ∧ ∃ payload, recs[k]? = some payload ∧
        size = headerOf payload ∧ off.toNat = offset c (boundary c recs k) payload.length ∧
        read = payload.take read.length
  | _ => False

/-- More records change nothing for a consumer that has old ones to read. -/
theorem ConsumerOk.append {recs : List (List Byte)} {k : Nat} {l : Local}
    (h : ConsumerOk c recs k l) (hk : k ≤ recs.length) (more : List (List Byte)) :
    ConsumerOk c (recs ++ more) k l := by
  have hget : ∀ payload, recs[k]? = some payload → (recs ++ more)[k]? = some payload :=
    fun payload hp => by
      rw [List.getElem?_append_left (List.getElem?_eq_some_iff.mp hp).1, hp]
  cases l with
  | ready readPos => exact h.trans (position_append hk more).symm
  | readWriterPos readPos => exact h.trans (position_append hk more).symm
  | readHeader readPos =>
    refine ⟨h.1.trans (position_append hk more).symm, ?_⟩
    rw [List.length_append]
    exact Nat.lt_add_right _ h.2
  | advance readPos size =>
    obtain ⟨hpos, payload, hp, hsize⟩ := h
    exact ⟨hpos.trans (position_append hk more).symm, payload, hget payload hp, hsize⟩
  | callback start readPos off size read =>
    obtain ⟨hstart, hpos, payload, hp, hsize, hoff, hread⟩ := h
    have hlt := (List.getElem?_eq_some_iff.mp hp).1
    refine ⟨hstart.trans (position_append hk more).symm,
      hpos.trans (position_append hlt more).symm, payload, hget payload hp, hsize, ?_, hread⟩
    -- the boundaries of the old records stay
    rw [boundary_append hk]
    exact hoff
  | idle => exact h.elim
  | loadPos payload => exact h.elim
  | writeHeader payload pos => exact h.elim
  | writePayload payload pos i => exact h.elim

end HopeThreading.SpmcBoundedNonUniformQueue
