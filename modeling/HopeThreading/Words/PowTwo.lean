import Mathlib.Data.Nat.ModEq
import Mathlib.Tactic.Ring

namespace Words

/-!
# Power-of-two sizes and masks of machine words

A ring of `2 ^ exp` slots is indexed by a free-running `w`-bit position with
`pos & (size - 1)`.  `PowTwo w` is a size for which that mask works: it fits the word.

* `PowTwo.toNat_and_mask` — masking is reduction modulo the size;
* `PowTwo.size_dvd` — the size divides `2 ^ w`, so a position that wraps around the word
  stays at the same slot;
* `PowTwo.assertion_iff` — `size > lo && (size & (size - 1)) == 0` accepts exactly these
  sizes.
-/

variable {w : Nat}

/-- A power of two that is a `w`-bit word. -/
structure PowTwo (w : Nat) where
  exp : Nat
  exp_lt : exp < w

namespace PowTwo

/-- The size itself, as a word. -/
def size (n : PowTwo w) : BitVec w := BitVec.twoPow w n.exp

/-- The mask `size - 1`. -/
def mask (n : PowTwo w) : BitVec w := n.size - 1#w

/-- The size as a natural number. -/
def toNat (n : PowTwo w) : Nat := 2 ^ n.exp

/-- A power of two is positive. -/
theorem toNat_pos (n : PowTwo w) : 0 < n.toNat := Nat.two_pow_pos n.exp

/-- A power of two in a word is less than the number of its values. -/
theorem toNat_lt (n : PowTwo w) : n.toNat < 2 ^ w :=
  Nat.pow_lt_pow_right (by omega) n.exp_lt

/-- The size is at most half of the word's range. -/
theorem toNat_le_half (n : PowTwo w) : n.toNat ≤ 2 ^ (w - 1) :=
  Nat.pow_le_pow_right (by omega) (by have := n.exp_lt; omega)

/-- The size divides the number of words. -/
theorem toNat_dvd (n : PowTwo w) : n.toNat ∣ 2 ^ w :=
  Nat.pow_dvd_pow 2 n.exp_lt.le

@[simp] theorem toNat_size (n : PowTwo w) : n.size.toNat = n.toNat :=
  BitVec.toNat_twoPow_of_lt n.exp_lt

@[simp] theorem toNat_mask (n : PowTwo w) : n.mask.toNat = n.toNat - 1 := by
  have hw : 0 < w := lt_of_le_of_lt (Nat.zero_le _) n.exp_lt
  have hpos := n.toNat_pos
  have hlt := n.toNat_lt
  have hone : (1#w).toNat = 1 := BitVec.toNat_one hw
  rw [mask, BitVec.toNat_sub_of_le, toNat_size, hone]
  rw [BitVec.le_def, hone, toNat_size]
  exact hpos

/-- **Masking.** `pos & (size - 1)` is the position modulo the size. -/
@[simp] theorem toNat_and_mask (n : PowTwo w) (pos : BitVec w) :
    (pos &&& n.mask).toNat = pos.toNat % n.toNat := by
  rw [BitVec.toNat_and, toNat_mask]
  exact Nat.and_two_pow_sub_one_eq_mod _ _

/-- A position modulo a power of two is less than it. -/
theorem mod_lt (n : PowTwo w) (p : Nat) : p % n.toNat < n.toNat :=
  Nat.mod_lt _ n.toNat_pos

/-- Two positions at the same slot are equal or at least one lap apart. -/
theorem eq_or_lap (n : PowTwo w) {p q : Nat} (h : p % n.toNat = q % n.toNat) (hle : p ≤ q) :
    p = q ∨ p + n.toNat ≤ q := by
  obtain ⟨d, hd⟩ := (Nat.modEq_iff_dvd' hle).mp h
  rcases Nat.eq_zero_or_pos d with rfl | hpos
  · left; omega
  · right
    have : n.toNat ≤ n.toNat * d := Nat.le_mul_of_pos_right _ hpos
    omega

/-- A position that is counted past the end of the word stays at its slot. -/
theorem ofNat_mod (n : PowTwo w) (p : Nat) : (BitVec.ofNat w p).toNat % n.toNat = p % n.toNat := by
  rw [BitVec.toNat_ofNat, Nat.mod_mod_of_dvd _ n.toNat_dvd]

/-- Positions of one lap are told apart by their slots … -/
theorem eq_of_mod_eq (n : PowTwo w) {m p q : Nat} (hp : m ≤ p ∧ p < m + n.toNat)
    (hq : m ≤ q ∧ q < m + n.toNat) (h : p % n.toNat = q % n.toNat) : p = q := by
  rcases Nat.le_total p q with hle | hle
  · rcases n.eq_or_lap h hle with heq | hlap <;> omega
  · rcases n.eq_or_lap h.symm hle with heq | hlap <;> omega

/-- … and by their words. -/
theorem eq_of_ofNat_eq (n : PowTwo w) {m p q : Nat} (hp : m ≤ p ∧ p < m + n.toNat)
    (hq : m ≤ q ∧ q < m + n.toNat) (h : BitVec.ofNat w p = BitVec.ofNat w q) : p = q :=
  n.eq_of_mod_eq hp hq (by rw [← n.ofNat_mod p, h, n.ofNat_mod])

/-- Every slot has a position within the lap from `m` on. -/
theorem exists_mod_eq (n : PowTwo w) (m : Nat) {i : Nat} (hi : i < n.toNat) :
    ∃ p, m ≤ p ∧ p < m + n.toNat ∧ p % n.toNat = i := by
  have hlt := n.mod_lt m
  have hm := Nat.div_add_mod m n.toNat
  have hslot : ∀ k, (n.toNat * k + i) % n.toNat = i := fun k => by
    rw [Nat.mul_add_mod, Nat.mod_eq_of_lt hi]
  by_cases hle : m % n.toNat ≤ i
  · exact ⟨n.toNat * (m / n.toNat) + i, by omega, by omega, hslot _⟩
  · refine ⟨n.toNat * (m / n.toNat + 1) + i, ?_, ?_, hslot _⟩ <;>
      rw [Nat.mul_succ] <;> omega

/-- Neighbouring positions share a slot only in a ring of one slot. -/
theorem succ_mod_ne (n : PowTwo w) (h : 0 < n.exp) (p : Nat) :
    (p + 1) % n.toNat ≠ p % n.toNat := by
  intro heq
  have htwo : 2 ≤ n.toNat := by
    have := Nat.pow_le_pow_right (n := 2) (by omega) h
    simpa [toNat] using this
  rcases n.eq_or_lap heq.symm (Nat.le_succ p) with h1 | h1 <;> omega

/-- A check `size > 2 ^ lo - 1 && (size & (size - 1)) == 0` with `lo ≤ 1` accepts exactly
    the powers of two from `2 ^ lo` on. -/
theorem assertion_iff (hw : 1 < w) (n : BitVec w) {lo : Nat} (hlo : lo ≤ 1) :
    (2 ^ lo - 1 < n.toNat ∧ n &&& (n - 1#w) = 0#w) ↔ ∃ p : PowTwo w, lo ≤ p.exp ∧ p.size = n := by
  have hone : (1#w).toNat = 1 := BitVec.toNat_one (by omega)
  have hland (h0 : 0 < n.toNat) : (n &&& (n - 1#w)).toNat = n.toNat &&& (n.toNat - 1) := by
    rw [BitVec.toNat_and, BitVec.toNat_sub_of_le, hone]
    rw [BitVec.le_def, hone]; exact h0
  constructor
  · rintro ⟨hgt, hand⟩
    have h0 : 0 < n.toNat := by omega
    have hnat : n.toNat &&& (n.toNat - 1) = 0 := by
      rw [← hland h0, hand, BitVec.toNat_zero]
    -- a positive number without a common bit with the one before it is a power of two
    obtain ⟨k, hk⟩ := (Nat.and_sub_one_eq_zero_iff_isPowerOfTwo (by omega)).mp hnat
    have hkw : k < w := by
      have := n.isLt
      rw [hk] at this
      exact (Nat.pow_lt_pow_iff_right (by omega)).mp this
    refine ⟨⟨k, hkw⟩, ?_, ?_⟩
    · show lo ≤ k
      by_contra hlt
      have hk0 : k = 0 := by omega
      have hlo1 : lo = 1 := by omega
      rw [hk, hk0, hlo1] at hgt
      simp at hgt
    · apply BitVec.eq_of_toNat_eq
      rw [toNat_size, hk]; rfl
  · rintro ⟨p, hp, rfl⟩
    rw [toNat_size]
    have hle : 2 ^ lo ≤ p.toNat := Nat.pow_le_pow_right (by omega) hp
    have hpos := p.toNat_pos
    refine ⟨by omega, ?_⟩
    apply BitVec.eq_of_toNat_eq
    rw [hland (by rw [toNat_size]; exact hpos), BitVec.toNat_zero, toNat_size]
    exact (Nat.and_sub_one_eq_zero_iff_isPowerOfTwo (by omega)).mpr ⟨p.exp, rfl⟩

end PowTwo

end Words
