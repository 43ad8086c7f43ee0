import HopeThreading.Transition.Sequence
import HopeThreading.Words.Fields

namespace HopeThreading

open Transition Words

/-!
# `tagged_ptr`

A pointer and a tag in one 64-bit word, the tag in the low 26 bits.  For the pointer that leaves
38 bits, ten less than the 48 significant bits of an address: each setter shifts the address
that it writes, or writes back, to the left, and the bits above bit 37 leave the word.

`independent_iff` says for every sequence of calls whether the two values are there afterwards
as they were set last, and `independent_of_bits_iff` for how many address bits they always are.
-/

/-! ### The model -/

/-- A `tagged_ptr` whose `TPtr` is a 64-bit unsigned address. -/
structure TaggedPtr where
  ptr : BitVec 64 := 0

namespace TaggedPtr

/-- `TagBitsCount`, the number of bits that are kept for the tag. -/
def tagBitsCount : Nat := 26

/-- `TagMask`, the lowest `TagBitsCount` bits. -/
def tagMask : BitVec 64 := (1 <<< tagBitsCount) - 1

/-- What is above the tag; nothing restores the bits that `set_ptr` has shifted out. -/
def getPtr (q : TaggedPtr) : BitVec 64 := q.ptr >>> tagBitsCount

/-- The tag, in the bits below the address. -/
def getTag (q : TaggedPtr) : BitVec 64 := q.ptr &&& tagMask

/-- A new address and the old tag. -/
def setPtr (q : TaggedPtr) (inPtr : BitVec 64) : TaggedPtr where
  ptr := q.getTag ||| inPtr <<< tagBitsCount

/-- A new tag, whatever its size, and the old address. -/
def setTag (q : TaggedPtr) (tag : BitVec 64) : TaggedPtr where
  ptr := tag ||| q.getPtr <<< tagBitsCount

/-- An address and a tag, without a look at what was there. -/
def setAll (_ : TaggedPtr) (inPtr tag : BitVec 64) : TaggedPtr where
  ptr := tag ||| inPtr <<< tagBitsCount

/-- The calls that set the word. -/
inductive Call
  | setPtr (inPtr : BitVec 64)
  | setTag (tag : BitVec 64)
  | setAll (inPtr tag : BitVec 64)

/-- The word after a call. -/
def call (q : TaggedPtr) : Call → TaggedPtr
  | .setPtr inPtr => q.setPtr inPtr
  | .setTag tag => q.setTag tag
  | .setAll inPtr tag => q.setAll inPtr tag

/-! ### Two variables -/

/-- The address a call sets. -/
def Call.address : Call → Option (BitVec 64)
  | .setPtr inPtr | .setAll inPtr _ => some inPtr
  | .setTag _ => none

/-- The tag a call sets. -/
def Call.tag : Call → Option (BitVec 64)
  | .setTag tag | .setAll _ tag => some tag
  | .setPtr _ => none

/-- Addresses of `bits` bits, and tags that fit the mask. -/
def Call.InRange (bits : Nat) : Call → Prop
  | .setPtr inPtr => inPtr.toNat < 2 ^ bits
  | .setTag tag => tag ≤ tagMask
  | .setAll inPtr tag => inPtr.toNat < 2 ^ bits ∧ tag ≤ tagMask

instance (bits : Nat) : (c : Call) → Decidable (c.InRange bits)
  | .setPtr inPtr => inferInstanceAs (Decidable (inPtr.toNat < 2 ^ bits))
  | .setTag tag => inferInstanceAs (Decidable (tag ≤ tagMask))
  | .setAll inPtr tag => inferInstanceAs (Decidable (inPtr.toNat < 2 ^ bits ∧ tag ≤ tagMask))

/-- The significant bits of an address on x64. -/
def significantBits : Nat := 48

/-- The calls leave the address and the tag as two variables of their own would be. -/
structure Independent (q : TaggedPtr) (calls : List Call) : Prop where
  ptr : (calls.foldl call q).getPtr = lastSet Call.address calls q.getPtr
  tag : (calls.foldl call q).getTag = lastSet Call.tag calls q.getTag

/-- The address that a call in range sets. -/
theorem Call.InRange.address {bits : Nat} {c : Call} (hc : c.InRange bits) {p : BitVec 64}
    (hp : c.address = some p) : p.toNat < 2 ^ bits := by
  cases c with
  | setPtr inPtr => exact Option.some.inj hp ▸ hc
  | setTag tag => exact absurd hp (by simp [Call.address])
  | setAll inPtr tag => exact Option.some.inj hp ▸ hc.1

/-- The tag that a call in range sets. -/
theorem Call.InRange.tag {bits : Nat} {c : Call} (hc : c.InRange bits) {t : BitVec 64}
    (ht : c.tag = some t) : t ≤ tagMask := by
  cases c with
  | setPtr inPtr => exact absurd ht (by simp [Call.tag])
  | setTag tag => exact Option.some.inj ht ▸ hc
  | setAll inPtr tag => exact Option.some.inj ht ▸ hc.2

/-! ### One call -/

/-- What the word keeps of an address. -/
def kept (inPtr : BitVec 64) : BitVec 64 := inPtr <<< tagBitsCount >>> tagBitsCount

variable {q : TaggedPtr} {c : Call} {calls : List Call} {bits : Nat}

/-- The mask is that of a field of `TagBitsCount` bits at bit `0`. -/
theorem tagMask_eq : tagMask = fieldMask 64 0 tagBitsCount := by decide

/-- A tag in range fits its field. -/
theorem tag_lt {t : BitVec 64} (ht : t ≤ tagMask) : t.toNat < 2 ^ tagBitsCount := by
  have hnat : t.toNat ≤ tagMask.toNat := ht
  have hmask : tagMask.toNat < 2 ^ tagBitsCount := by decide
  exact Nat.lt_of_le_of_lt hnat hmask

/-- Whatever the word is, its tag fits the field. -/
theorem getTag_lt (q : TaggedPtr) : q.getTag.toNat < 2 ^ tagBitsCount := by
  rw [getTag, tagMask_eq]
  exact and_fieldMask_lt q.ptr (by decide)

/-- Exactly the addresses with at most `64 - TagBitsCount` bits come back. -/
theorem kept_eq_iff {p : BitVec 64} : kept p = p ↔ p.toNat < 2 ^ (64 - tagBitsCount) :=
  shiftLeft_ushiftRight_eq_iff (by decide)

/-- An address that was read from a word comes back from every other one. -/
theorem kept_getPtr (q : TaggedPtr) : kept q.getPtr = q.getPtr :=
  kept_eq_iff.mpr (ushiftRight_lt q.ptr (by decide))

/-- A word as the setters build it. -/
theorem getPtr_of_fields {p t : BitVec 64} (ht : t.toNat < 2 ^ tagBitsCount) :
    getPtr { ptr := t ||| p <<< tagBitsCount } = kept p :=
  or_shiftLeft_ushiftRight ht

/-- The tag of a word that is put together from a tag in range and an address. -/
theorem getTag_of_fields {p t : BitVec 64} (ht : t.toNat < 2 ^ tagBitsCount) :
    getTag { ptr := t ||| p <<< tagBitsCount } = t := by
  rw [getTag, tagMask_eq]
  exact or_shiftLeft_and_fieldMask ht (by decide)

/-- A call sets what the word keeps of its address, or leaves the pointer alone. -/
theorem getPtr_call (hc : c.InRange bits) :
    (call q c).getPtr = (c.address.map kept).getD q.getPtr := by
  cases c with
  | setPtr inPtr => exact getPtr_of_fields q.getTag_lt
  | setTag tag =>
    -- the pointer is shifted out and in again
    rw [call, setTag, getPtr_of_fields (tag_lt (hc.tag rfl)), kept_getPtr]
    rfl
  | setAll inPtr tag => exact getPtr_of_fields (tag_lt (hc.tag rfl))

/-- A call sets its tag, or leaves the tag alone. -/
theorem getTag_call (hc : c.InRange bits) :
    (call q c).getTag = c.tag.getD q.getTag := by
  cases c with
  | setPtr inPtr => exact getTag_of_fields q.getTag_lt
  | setTag tag => exact getTag_of_fields (tag_lt (hc.tag rfl))
  | setAll inPtr tag => exact getTag_of_fields (tag_lt (hc.tag rfl))

/-! ### A sequence of calls -/

/-- After any calls in range the address is that of the last call that set one, up to the bits
    that are shifted out. -/
theorem getPtr_calls (hcalls : ∀ c ∈ calls, c.InRange bits) :
    (calls.foldl call q).getPtr = lastSet (fun c => c.address.map kept) calls q.getPtr := by
  apply get_foldl getPtr (fun c : Call => c.address.map kept)
  intro q c hc
  exact getPtr_call (hcalls c hc)

/-- After any calls in range the tag is that of the last call that set one. -/
theorem getTag_calls (hcalls : ∀ c ∈ calls, c.InRange bits) :
    (calls.foldl call q).getTag = lastSet Call.tag calls q.getTag := by
  apply get_foldl getTag Call.tag
  intro q c hc
  exact getTag_call (hcalls c hc)

/-- The pointer is the last address set if that one has left no bit outside of the word. -/
theorem getPtr_calls_iff (hcalls : ∀ c ∈ calls, c.InRange bits) :
    (calls.foldl call q).getPtr = lastSet Call.address calls q.getPtr ↔
      ∀ p, (calls.filterMap Call.address).getLast? = some p →
        p.toNat < 2 ^ (64 - tagBitsCount) := by
  rw [getPtr_calls hcalls, lastSet_map_eq_iff]
  apply forall₂_congr
  intro p _
  exact kept_eq_iff

/-- **Independent fields.** After calls with addresses of 48 bits and tags that fit the mask, the
    pointer and the tag are what was set last if and only if the last address has 38 bits. -/
theorem independent_iff (hcalls : ∀ c ∈ calls, c.InRange significantBits) :
    Independent q calls ↔
      ∀ p, (calls.filterMap Call.address).getLast? = some p →
        p.toNat < 2 ^ (64 - tagBitsCount) := by
  constructor
  · intro h
    exact (getPtr_calls_iff hcalls).mp h.ptr
  · intro h
    exact ⟨(getPtr_calls_iff hcalls).mpr h, getTag_calls hcalls⟩

/-- The largest address that the word keeps; a larger one before it does no harm. -/
theorem independent_iff_four :
    Independent {} [.setAll 0x7f0000000000 9, .setTag 7, .setPtr 0x3fffffffff, .setTag 5] := by
  refine (independent_iff (by decide)).mpr ?_
  intro p hp
  rw [← Option.some.inj hp]
  decide

/-- **Lost bits.** The address `0x7f0000000000` has 47 bits, and comes back as the null pointer. -/
theorem not_independent :
    (∀ c ∈ [Call.setPtr 0x7f0000000000], c.InRange significantBits) ∧
      (call {} (.setPtr 0x7f0000000000)).getPtr = 0 ∧
      ¬ Independent {} [.setPtr 0x7f0000000000] := by
  refine ⟨by decide, by decide, ?_⟩
  intro h
  exact absurd h.ptr (by decide)

/-- The two fields are independent for all addresses of `bits` bits exactly if these and the
    bits of the tag fit the word together. -/
theorem independent_of_bits_iff (bits : Nat) :
    (∀ q calls, (∀ c ∈ calls, c.InRange bits) → Independent q calls) ↔
      bits + tagBitsCount ≤ 64 := by
  have hcount : tagBitsCount = 26 := rfl
  constructor
  · intro h
    by_contra hbits
    -- the least address that does not fit
    have hlt : (2 ^ 38 : Nat) < 2 ^ bits := Nat.pow_lt_pow_right (by omega) (by omega)
    have hrange : ∀ c ∈ [Call.setPtr (2 ^ 38)], c.InRange bits := by
      intro c hc
      rw [List.mem_singleton.mp hc]
      exact hlt
    exact absurd (h {} _ hrange).ptr (by decide)
  · intro hbits q calls hcalls
    refine ⟨(getPtr_calls_iff hcalls).mpr ?_, getTag_calls hcalls⟩
    intro p hp
    obtain ⟨c, hc, haddress⟩ := List.mem_filterMap.mp (List.mem_of_getLast? hp)
    calc p.toNat
        < 2 ^ bits := (hcalls c hc).address haddress
      _ ≤ 2 ^ (64 - tagBitsCount) := Nat.pow_le_pow_right (by omega) (by omega)

end TaggedPtr

end HopeThreading
