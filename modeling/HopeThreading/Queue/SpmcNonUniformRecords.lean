import HopeThreading.Queue.SpmcNonUniform

namespace HopeThreading.SpmcBoundedNonUniformQueue

open Memory Words

/-!
# `spmc_bounded_non_uniform_queue` — where the bytes of a record are

Positions are natural numbers here, of which the code keeps the lowest 64 bits.  A record of
`len` bytes at `pos` has its header at `pos` and its payload `lead` bytes after it, which is
at the beginning of the next lap when the record wraps; it takes `advance` bytes of the
sequence of positions.  `place_fst` and `place_snd` say that the code's 64-bit arithmetic
computes these, and `header_address`, `payload_address` that each byte is at its position
modulo the size of the ring.
-/

variable {c : PowTwo 64}

/-- The payload does not fit behind the header. -/
def Wraps (c : PowTwo 64) (pos len : Nat) : Prop := c.toNat < pos % c.toNat + len + 4

instance (pos len : Nat) : Decidable (Wraps c pos len) := inferInstanceAs (Decidable (_ < _))

/-- The offset of the payload. -/
def offset (c : PowTwo 64) (pos len : Nat) : Nat :=
  if Wraps c pos len then 0 else pos % c.toNat + 4

/-- From the header to the payload. -/
def lead (c : PowTwo 64) (pos len : Nat) : Nat :=
  if Wraps c pos len then c.toNat - pos % c.toNat else 4

/-- From a record to the next one. -/
def advance (c : PowTwo 64) (pos len : Nat) : Nat := lead c pos len + len

/-- The payload is behind the beginning of the header. -/
theorem lead_pos (pos len : Nat) : 0 < lead c pos len := by
  have := c.mod_lt pos
  unfold lead
  split <;> omega

/-- A record that fits an empty ring takes less than two laps: at most what is left of this one,
    and its payload. -/
theorem advance_le (pos : Nat) {len : Nat} (hlen : len + 4 ≤ c.toNat) :
    advance c pos len ≤ c.toNat + len := by
  have := c.mod_lt pos
  unfold advance lead
  split <;> omega

/-! ### The arithmetic of the code -/

/-- A position that wraps around the word keeps its place in the ring. -/
@[simp]
theorem toNat_ofNat_mod (pos : Nat) : (BitVec.ofNat 64 pos).toNat % c.toNat = pos % c.toNat := by
  rw [BitVec.toNat_ofNat, Nat.mod_mod_of_dvd _ c.toNat_dvd]

/-- The test of the code, in 64-bit words, is whether the record wraps. -/
theorem wraps_iff (pos : BitVec 64) {len : Nat} (hlen : len + 4 ≤ 2 ^ 63) :
    corrected c pos + BitVec.ofNat 64 len + sizeofHeader > c.size ↔ Wraps c pos.toNat len := by
  have hmod := c.mod_lt pos.toNat
  have hhalf := c.toNat_le_half
  have hfour : sizeofHeader.toNat = 4 := rfl
  have hsum : (corrected c pos + BitVec.ofNat 64 len + sizeofHeader).toNat =
      pos.toNat % c.toNat + len + 4 := by
    rw [BitVec.toNat_add, BitVec.toNat_add, corrected, PowTwo.toNat_and_mask, BitVec.toNat_ofNat,
      hfour]
    omega
  rw [gt_iff_lt, BitVec.lt_def, hsum, PowTwo.toNat_size]
  rfl

/-- The code puts the payload at the offset of the record. -/
theorem place_fst (pos : BitVec 64) {len : Nat} (hlen : len + 4 ≤ 2 ^ 63) :
    (place c pos (BitVec.ofNat 64 len)).1.toNat = offset c pos.toNat len := by
  have hmod := c.mod_lt pos.toNat
  have hhalf := c.toNat_le_half
  have hfour : sizeofHeader.toNat = 4 := rfl
  unfold place offset
  by_cases hw : Wraps c pos.toNat len
  · rw [if_pos ((wraps_iff pos hlen).mpr hw), if_pos hw]
    rfl
  · rw [if_neg fun h => hw ((wraps_iff pos hlen).mp h), if_neg hw, BitVec.toNat_add, corrected,
      PowTwo.toNat_and_mask, hfour]
    omega

/-- The code goes on from the record by as much as it takes. -/
theorem place_snd (pos : BitVec 64) {len : Nat} (hlen : len + 4 ≤ 2 ^ 63) :
    (place c pos (BitVec.ofNat 64 len)).2 = pos + BitVec.ofNat 64 (advance c pos.toNat len) := by
  have hmod := c.mod_lt pos.toNat
  unfold place advance lead
  by_cases hw : Wraps c pos.toNat len
  · rw [if_pos ((wraps_iff pos hlen).mpr hw), if_pos hw]
    have hdiv : pos / c.size = BitVec.ofNat 64 (pos.toNat / c.toNat) := by
      apply BitVec.eq_of_toNat_eq
      rw [BitVec.toNat_udiv, PowTwo.toNat_size, BitVec.toNat_ofNat, Nat.mod_eq_of_lt]
      exact Nat.lt_of_le_of_lt (Nat.div_le_self _ _) pos.isLt
    have hsize : c.size = BitVec.ofNat 64 c.toNat := by
      apply BitVec.eq_of_toNat_eq
      rw [PowTwo.toNat_size, BitVec.toNat_ofNat, Nat.mod_eq_of_lt c.toNat_lt]
    have hpos : BitVec.ofNat 64 pos.toNat = pos := by
      rw [BitVec.ofNat_toNat, BitVec.setWidth_eq]
    have hnat : (pos.toNat / c.toNat + 1) * c.toNat + len =
        pos.toNat + (c.toNat - pos.toNat % c.toNat + len) := by
      have := Nat.div_add_mod pos.toNat c.toNat
      rw [Nat.add_mul, Nat.mul_comm]
      omega
    show (pos / c.size + 1#64) * c.size + _ = _
    rw [hdiv, hsize, ← BitVec.ofNat_add, ← BitVec.ofNat_mul, ← BitVec.ofNat_add, hnat,
      BitVec.ofNat_add, hpos]
  · rw [if_neg fun h => hw ((wraps_iff pos hlen).mp h), if_neg hw, BitVec.ofNat_add,
      BitVec.add_assoc]
    rfl

/-! ### Headers -/

/-- A header has room for every size below `2 ^ 32`. -/
theorem toNat_headerOf {payload : List Byte} (hlen : payload.length < 2 ^ 32) :
    (headerOf payload).toNat = payload.length := by
  rw [headerOf, BitVec.toNat_setWidth, BitVec.toNat_ofNat]
  omega

/-- The header of a record of less than `2 ^ 32` bytes gives its size back. -/
theorem setWidth_headerOf {payload : List Byte} (hlen : payload.length < 2 ^ 32) :
    (headerOf payload).setWidth 64 = BitVec.ofNat 64 payload.length := by
  rw [← BitVec.ofNat_toNat, toNat_headerOf hlen]

/-- What `write_size` writes, byte by byte. -/
theorem writeSize_byte (buffer : Bytes) (size : BitVec 32) (position : Nat) {i : Nat}
    (hi : i < 4) : writeSize buffer size position (position + i) = byteOf size i := by
  refine store_inside _ _ ?_
  rw [List.getElem?_map, List.getElem?_range hi]
  rfl

/-! ### Addresses -/

/-- A header that does not cross the end has its bytes one after the other. -/
theorem header_address {pos i : Nat} (hfits : pos % c.toNat + 4 ≤ c.toNat) (hi : i < 4) :
    (pos + i) % c.toNat = pos % c.toNat + i := by
  have hdiv := Nat.div_add_mod pos c.toNat
  have hsame : pos + i = (pos % c.toNat + i) + c.toNat * (pos / c.toNat) := by omega
  rw [hsame, Nat.add_mul_mod_self_left, Nat.mod_eq_of_lt (by omega)]

/-- Each byte of a payload is at the address of its position, as long as the payload takes no more
    than one lap. -/
theorem payload_address {pos len i : Nat} (hi : i < len) (hfits : Wraps c pos len → i < c.toNat) :
    (pos + (lead c pos len + i)) % c.toNat = offset c pos len + i := by
  have hdiv := Nat.div_add_mod pos c.toNat
  have hmod := c.mod_lt pos
  unfold lead offset
  by_cases hw : Wraps c pos len
  · rw [if_pos hw, if_pos hw]
    have hnext : pos + (c.toNat - pos % c.toNat + i) = i + c.toNat * (pos / c.toNat + 1) := by
      rw [Nat.mul_add]
      omega
    rw [hnext, Nat.add_mul_mod_self_left, Nat.mod_eq_of_lt (hfits hw), Nat.zero_add]
  · rw [if_neg hw, if_neg hw]
    have hle : pos % c.toNat + len + 4 ≤ c.toNat := Nat.not_lt.mp hw
    have hsame : pos + (4 + i) = (pos % c.toNat + 4 + i) + c.toNat * (pos / c.toNat) := by omega
    rw [hsame, Nat.add_mul_mod_self_left, Nat.mod_eq_of_lt (by omega)]

/-- Two positions less than one lap apart have different addresses. -/
theorem address_ne {a b : Nat} (hab : a < b) (hlap : b < a + c.toNat) :
    a % c.toNat ≠ b % c.toNat := by
  intro h
  rcases c.eq_or_lap h hab.le with h | h <;> omega

end HopeThreading.SpmcBoundedNonUniformQueue
