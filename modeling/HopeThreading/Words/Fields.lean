import Mathlib.Data.Nat.ModEq

namespace Words

/-!
# Bit fields of machine words

A word that holds several counters is read with a mask.  `fieldMask w lo len` is the mask of
the `len` bits from bit `lo` on, and `toNat_and_fieldMask` says that masking leaves that field
of the number.  `field_of_eq` reads the field of a number that is written as its parts.

`x ||| y <<< k` puts the field `y` above the `k` bits of the field `x`.  The lower field is read
back whenever it fits its bits, the upper one when it fits what is left of the word
(`or_shiftLeft_and_fieldMask`, `shiftLeft_ushiftRight_eq_iff`).
-/

variable {w lo len : Nat}

/-- The mask of the bits `lo`, …, `lo + len - 1`. -/
def fieldMask (w lo len : Nat) : BitVec w := BitVec.ofNat w ((2 ^ len - 1) * 2 ^ lo)

/-- Masking a number. -/
theorem and_field (n lo len : Nat) :
    n &&& ((2 ^ len - 1) * 2 ^ lo) = n / 2 ^ lo % 2 ^ len * 2 ^ lo := by
  apply Nat.eq_of_testBit_eq
  intro i
  rw [Nat.testBit_and, Nat.testBit_mul_two_pow, Nat.testBit_mul_two_pow,
    Nat.testBit_two_pow_sub_one, Nat.testBit_mod_two_pow, Nat.testBit_div_two_pow]
  by_cases hlo : lo ≤ i
  · -- bit `i` is bit `i - lo` of the field
    rw [show i - lo + lo = i by omega]
    simp [hlo, Bool.and_comm]
  · simp [hlo]

/-- **Masking.** `x & mask` is the field, at its place. -/
theorem toNat_and_fieldMask (x : BitVec w) (h : lo + len ≤ w) :
    (x &&& fieldMask w lo len).toNat = x.toNat / 2 ^ lo % 2 ^ len * 2 ^ lo := by
  have hlt : (2 ^ len - 1) * 2 ^ lo < 2 ^ w := by
    have hpos := Nat.two_pow_pos lo
    have hlen := Nat.two_pow_pos len
    calc (2 ^ len - 1) * 2 ^ lo
        < 2 ^ len * 2 ^ lo := Nat.mul_lt_mul_of_pos_right (by omega) hpos
      _ = 2 ^ (lo + len) := by rw [Nat.add_comm, Nat.pow_add]
      _ ≤ 2 ^ w := Nat.pow_le_pow_right (by omega) h
  rw [BitVec.toNat_and, fieldMask, BitVec.toNat_ofNat, Nat.mod_eq_of_lt hlt, and_field]

/-- The test `(x & mask) == 0`. -/
theorem and_fieldMask_eq_zero (x : BitVec w) (h : lo + len ≤ w) :
    x &&& fieldMask w lo len = 0 ↔ x.toNat / 2 ^ lo % 2 ^ len = 0 := by
  have hpos := Nat.two_pow_pos lo
  have hnat := toNat_and_fieldMask x h
  constructor
  · intro hzero
    rw [hzero] at hnat
    have : x.toNat / 2 ^ lo % 2 ^ len * 2 ^ lo = 0 := by rw [← hnat]; simp
    exact (Nat.mul_eq_zero.mp this).resolve_right (by omega)
  · intro hzero
    apply BitVec.eq_of_toNat_eq
    rw [hnat, hzero]
    simp

/-- The field between a lower and a higher part. -/
theorem field_of_eq {n a b c : Nat} (hn : n = a + 2 ^ lo * (b + 2 ^ len * c))
    (ha : a < 2 ^ lo) (hb : b < 2 ^ len) : n / 2 ^ lo % 2 ^ len = b := by
  rw [hn, Nat.add_mul_div_left _ _ (Nat.two_pow_pos lo), Nat.div_eq_of_lt ha, Nat.zero_add,
    Nat.add_mul_mod_self_left, Nat.mod_eq_of_lt hb]

/-! ### Two fields in one word -/

section

variable {k : Nat} {x y : BitVec w}

/-- What is above the first `k` bits. -/
theorem ushiftRight_lt (x : BitVec w) (hk : k ≤ w) : (x >>> k).toNat < 2 ^ (w - k) := by
  rw [BitVec.toNat_ushiftRight, Nat.shiftRight_eq_div_pow]
  apply Nat.div_lt_of_lt_mul
  rw [← Nat.pow_add, Nat.add_sub_cancel' hk]
  exact x.isLt

/-- The field of the first `k` bits. -/
theorem and_fieldMask_lt (x : BitVec w) (hk : k ≤ w) : (x &&& fieldMask w 0 k).toNat < 2 ^ k := by
  rw [toNat_and_fieldMask x (by omega), Nat.pow_zero, Nat.mul_one]
  exact Nat.mod_lt _ (Nat.two_pow_pos k)

/-- The lower field does not reach the upper one … -/
theorem or_shiftLeft_ushiftRight (h : x.toNat < 2 ^ k) :
    (x ||| y <<< k) >>> k = y <<< k >>> k := by
  have hx : x >>> k = 0 := by
    apply BitVec.eq_of_toNat_eq
    rw [BitVec.toNat_ushiftRight, Nat.shiftRight_eq_div_pow, Nat.div_eq_of_lt h]
    simp
  rw [BitVec.ushiftRight_or_distrib, hx]
  simp

/-- … nor the upper field the lower one. -/
theorem or_shiftLeft_and_fieldMask (h : x.toNat < 2 ^ k) (hk : k ≤ w) :
    (x ||| y <<< k) &&& fieldMask w 0 k = x := by
  have hx : x &&& fieldMask w 0 k = x := by
    apply BitVec.eq_of_toNat_eq
    rw [toNat_and_fieldMask x (by omega)]
    simp [Nat.mod_eq_of_lt h]
  have hy : y <<< k &&& fieldMask w 0 k = 0 := by
    rw [and_fieldMask_eq_zero _ (by omega), BitVec.toNat_shiftLeft, Nat.shiftLeft_eq, Nat.pow_zero,
      Nat.div_one, Nat.mod_mod_of_dvd _ (Nat.pow_dvd_pow 2 hk)]
    exact Nat.mul_mod_left _ _
  rw [BitVec.and_or_distrib_right, hx, hy]
  simp

/-- **Lost bits.** The upper field has `w - k` bits. -/
theorem shiftLeft_ushiftRight_eq_iff (hk : k ≤ w) :
    y <<< k >>> k = y ↔ y.toNat < 2 ^ (w - k) := by
  constructor
  · intro h
    rw [← h]
    exact ushiftRight_lt _ hk
  · intro h
    apply BitVec.eq_of_toNat_eq
    have hlt : y.toNat * 2 ^ k < 2 ^ w := by
      calc y.toNat * 2 ^ k
          < 2 ^ (w - k) * 2 ^ k := Nat.mul_lt_mul_of_pos_right h (Nat.two_pow_pos k)
        _ = 2 ^ w := by rw [← Nat.pow_add, Nat.sub_add_cancel hk]
    rw [BitVec.toNat_ushiftRight, BitVec.toNat_shiftLeft, Nat.shiftLeft_eq, Nat.mod_eq_of_lt hlt,
      Nat.shiftRight_eq_div_pow, Nat.mul_div_cancel _ (Nat.two_pow_pos k)]

end

end Words
