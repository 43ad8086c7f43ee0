import Mathlib.Algebra.Group.Nat.Defs
import Mathlib.Data.List.Basic

namespace Memory

/-!
# Byte memories

A memory is a function from addresses to bytes; `load` and `store` move a list of bytes.
A 32-bit word is kept in four bytes, least significant first (`byteOf`, `ofBytes`), and
these are inverse to each other.
-/

/-- One byte of memory. -/
abbrev Byte := BitVec 8

/-- Raw memory, byte by byte. -/
abbrev Bytes := Nat → Byte

/-- Write `bs` from address `pos` on. -/
def store (m : Bytes) (pos : Nat) (bs : List Byte) : Bytes := fun a =>
  if pos ≤ a then bs[a - pos]?.getD (m a) else m a

/-- The `n` bytes from address `pos` on. -/
def load (m : Bytes) (pos n : Nat) : List Byte := (List.range n).map fun i => m (pos + i)

/-- What `store` writes. -/
theorem store_inside (m : Bytes) (pos : Nat) {bs : List Byte} {i : Nat} {b : Byte}
    (h : bs[i]? = some b) : store m pos bs (pos + i) = b := by
  rw [store, if_pos (Nat.le_add_right _ _), Nat.add_sub_cancel_left, h]
  rfl

/-- What `store` leaves alone. -/
theorem store_outside (m : Bytes) {pos a : Nat} {bs : List Byte}
    (h : a < pos ∨ pos + bs.length ≤ a) : store m pos bs a = m a := by
  rcases h with h | h
  · rw [store, if_neg (by omega)]
  · rw [store, if_pos (by omega), List.getElem?_eq_none (by omega)]
    rfl

/-- Reading back what was written. -/
theorem load_eq {m : Bytes} {pos : Nat} {bs : List Byte}
    (h : ∀ i b, bs[i]? = some b → m (pos + i) = b) : load m pos bs.length = bs := by
  refine List.ext_getElem (by simp [load]) fun i _ hi => ?_
  simpa [load] using h i bs[i] (List.getElem?_eq_getElem hi)

/-! ### Words -/

/-- Byte `i` of a word. -/
def byteOf (x : BitVec 32) (i : Nat) : Byte := x.extractLsb' (8 * i) 8

/-- The word with the bytes `b 0`, …, `b 3`. -/
def ofBytes (b : Bytes) : BitVec 32 := b 3 ++ b 2 ++ b 1 ++ b 0

/-- The bits of a 32-bit value are those of its bytes. -/
theorem getLsbD_ofBytes (b : Bytes) {j : Nat} (hj : j < 32) :
    (ofBytes b).getLsbD j = (b (j / 8)).getLsbD (j % 8) := by
  have hbyte : ∀ i k, j = 8 * i + k → k < 8 →
      (b (j / 8)).getLsbD (j % 8) = (b i).getLsbD k := fun i k h hk => by
    rw [show j / 8 = i by omega, show j % 8 = k by omega]
  simp only [ofBytes, BitVec.getLsbD_append]
  by_cases h0 : j < 8
  · rw [if_pos h0, hbyte 0 j (by omega) h0]
  rw [if_neg h0]
  by_cases h1 : j - 8 < 8
  · rw [if_pos h1, hbyte 1 (j - 8) (by omega) h1]
  rw [if_neg h1]
  by_cases h2 : j - 8 - 8 < 8
  · rw [if_pos h2, hbyte 2 (j - 8 - 8) (by omega) h2]
  rw [if_neg h2, hbyte 3 (j - 8 - 8 - 8) (by omega) (by omega)]

/-- The bytes of a value made of bytes are these bytes. -/
theorem byteOf_ofBytes (b : Bytes) {i : Nat} (hi : i < 4) : byteOf (ofBytes b) i = b i := by
  refine BitVec.eq_of_getLsbD_eq fun j hj => ?_
  rw [byteOf, BitVec.getLsbD_extractLsb', getLsbD_ofBytes b (by omega),
    show (8 * i + j) / 8 = i by omega, show (8 * i + j) % 8 = j by omega]
  simp [hj]

/-- A value is made of its own bytes. -/
theorem ofBytes_byteOf (x : BitVec 32) : ofBytes (byteOf x) = x := by
  refine BitVec.eq_of_getLsbD_eq fun j hj => ?_
  rw [getLsbD_ofBytes _ hj, byteOf, BitVec.getLsbD_extractLsb',
    show 8 * (j / 8) + j % 8 = j by omega]
  simp [Nat.mod_lt]

/-- A word is determined by its bytes. -/
theorem ofBytes_eq_iff {b : Bytes} {x : BitVec 32} :
    ofBytes b = x ↔ ∀ i, i < 4 → b i = byteOf x i := by
  constructor
  · rintro rfl i hi
    rw [byteOf_ofBytes b hi]
  · intro h
    rw [← ofBytes_byteOf x]
    simp only [ofBytes]
    rw [h 0 (by omega), h 1 (by omega), h 2 (by omega), h 3 (by omega)]

/-! ### The number in a word -/

/-- A byte of a word is a digit of its number, to the base of 256. -/
theorem toNat_byteOf (x : BitVec 32) (i : Nat) : (byteOf x i).toNat = x.toNat / 256 ^ i % 256 := by
  rw [byteOf, BitVec.extractLsb'_toNat, Nat.shiftRight_eq_div_pow, Nat.pow_mul]

/-- The number that four bytes make. -/
theorem toNat_ofBytes (b : Bytes) : (ofBytes b).toNat =
    (b 0).toNat + 256 * (b 1).toNat + 256 ^ 2 * (b 2).toNat + 256 ^ 3 * (b 3).toNat := by
  have h0 := (b 0).isLt
  have h1 := (b 1).isLt
  have h2 := (b 2).isLt
  have h3 := (b 3).isLt
  simp only [ofBytes, BitVec.toNat_append]
  rw [← Nat.shiftLeft_add_eq_or_of_lt h2, ← Nat.shiftLeft_add_eq_or_of_lt h1,
    ← Nat.shiftLeft_add_eq_or_of_lt h0]
  simp only [Nat.shiftLeft_eq]
  omega

/-- The bytes from `n` on determine a number up to its `n` lowest digits. -/
theorem toNat_ofBytes_lt {b : Bytes} {x : BitVec 32} {n : Nat} (hn : n ≤ 4)
    (h : ∀ i, n ≤ i → i < 4 → b i = byteOf x i) :
    (ofBytes b).toNat < (x.toNat / 256 ^ n + 1) * 256 ^ n := by
  have hsame (i : Nat) (hi : n ≤ i) (hlt : i < 4) : (b i).toNat = x.toNat / 256 ^ i % 256 := by
    rw [h i hi hlt, toNat_byteOf]
  have h0 := (b 0).isLt
  have h1 := (b 1).isLt
  have h2 := (b 2).isLt
  have h3 := (b 3).isLt
  have hx := x.isLt
  rw [toNat_ofBytes]
  -- one case for each number of bytes that may be anything
  obtain rfl | rfl | rfl | rfl | rfl : n = 0 ∨ n = 1 ∨ n = 2 ∨ n = 3 ∨ n = 4 := by omega
  · have := hsame 0 (by omega) (by omega)
    have := hsame 1 (by omega) (by omega)
    have := hsame 2 (by omega) (by omega)
    have := hsame 3 (by omega) (by omega)
    omega
  · have := hsame 1 (by omega) (by omega)
    have := hsame 2 (by omega) (by omega)
    have := hsame 3 (by omega) (by omega)
    omega
  · have := hsame 2 (by omega) (by omega)
    have := hsame 3 (by omega) (by omega)
    omega
  · have := hsame 3 (by omega) (by omega)
    omega
  · omega

/-- The largest number with `n` given digits. -/
theorem le_toNat_ofBytes {b : Bytes} {n : Nat} (hn : n ≤ 4) (h : ∀ i, i < n → b i = 255#8) :
    256 ^ n - 1 ≤ (ofBytes b).toNat := by
  have hmax (i : Nat) (hi : i < n) : (b i).toNat = 255 := by
    rw [h i hi]
    rfl
  rw [toNat_ofBytes]
  obtain rfl | rfl | rfl | rfl | rfl : n = 0 ∨ n = 1 ∨ n = 2 ∨ n = 3 ∨ n = 4 := by omega
  · omega
  · have := hmax 0 (by omega)
    omega
  · have := hmax 0 (by omega)
    have := hmax 1 (by omega)
    omega
  · have := hmax 0 (by omega)
    have := hmax 1 (by omega)
    have := hmax 2 (by omega)
    omega
  · have := hmax 0 (by omega)
    have := hmax 1 (by omega)
    have := hmax 2 (by omega)
    have := hmax 3 (by omega)
    omega

end Memory
