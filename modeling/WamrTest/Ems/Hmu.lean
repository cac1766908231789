import Mathlib.Algebra.Order.Ring.Int
import WamrTest.Framework.BitField
import WamrTest.Framework.Words

/-!
# Headers of heap memory units

The 32-bit header in front of every chunk of an app heap or of the runtime's own pool: the type,
the bit that says whether the chunk before is in use, and the size in units of 8 bytes.
-/

namespace WamrTest.Ems

open BitField ByteMemory

def hmuFc : BitVec 32 := 1#32

def hmuVo : BitVec 32 := 2#32

def hmuGetUt (header : BitVec 32) : BitVec 32 := getBits header 30 2

def hmuSetUt (type header : BitVec 32) : BitVec 32 := setBits header 30 2 type

def hmuMarkPinuse (header : BitVec 32) : BitVec 32 := setBit header 29

def hmuUnmarkPinuse (header : BitVec 32) : BitVec 32 := clrBit header 29

def hmuGetPinuse (header : BitVec 32) : Bool := getBit header 29

def hmuIsVoFreed (header : BitVec 32) : Bool := getBit header 28

def hmuUnfreeVo (header : BitVec 32) : BitVec 32 := clrBit header 28

def hmuGetSize (header : BitVec 32) : ℤ := (getBits header 0 27 <<< 3).toNat

def hmuSetSize (size : ℤ) (header : BitVec 32) : BitVec 32 := setBits header 0 27 (BitVec.ofInt 32 size >>> 3)

/-- A size that a header can hold. -/
structure Fits (size : ℤ) : Prop where
  nonneg : 0 ≤ size
  lt : size < 2 ^ 30
  aligned : 8 ∣ size

theorem toNat_ofInt {size : ℤ} (h0 : 0 ≤ size) (hlt : size < 2 ^ 32) :
    ((BitVec.ofInt 32 size).toNat : ℤ) = size := by
  rw [BitVec.toNat_ofInt]
  omega

theorem toInt_ofInt {n : ℤ} (h0 : -2 ^ 31 ≤ n) (hlt : n < 2 ^ 31) : (BitVec.ofInt 32 n).toInt = n := by
  rw [BitVec.toInt_ofInt]
  exact Int.bmod_eq_of_le (by omega) (by omega)

theorem Fits.field {size : ℤ} (h : Fits size) : (BitVec.ofInt 32 size >>> 3).toNat < 2 ^ 27 := by
  have hsize := toNat_ofInt h.nonneg (by have := h.lt; omega)
  have hlt := h.lt
  rw [BitVec.toNat_ushiftRight,Nat.shiftRight_eq_div_pow]
  omega

theorem hmuGetSize_bounds (header : BitVec 32) : 0 ≤ hmuGetSize header ∧ hmuGetSize header < 2 ^ 30 := by
  have hones : (ones 32 27).toNat = 2 ^ 27 - 1 := by decide
  have hle : (getBits header 0 27).toNat ≤ 2 ^ 27 - 1 := by
    rw [getBits,BitVec.ushiftRight_zero,BitVec.shiftLeft_zero,BitVec.toNat_and,← hones]
    exact Nat.and_le_right
  rw [hmuGetSize,BitVec.toNat_shiftLeft,Nat.shiftLeft_eq]
  omega

section Fields

variable (header : BitVec 32)

@[simp] theorem hmuGetSize_setSize {size : ℤ} (h : Fits size) : hmuGetSize (hmuSetSize size header) = size := by
  have hsize := toNat_ofInt h.nonneg (by have := h.lt; omega)
  have hlt := h.lt
  obtain ⟨k,hk⟩ := h.aligned
  rw [hmuGetSize,hmuSetSize,getBits_setBits header (by decide) (by decide) h.field,
    BitVec.toNat_shiftLeft,BitVec.toNat_ushiftRight,Nat.shiftRight_eq_div_pow,Nat.shiftLeft_eq]
  omega

@[simp] theorem hmuGetSize_setUt {type : BitVec 32} (h : type.toNat < 2 ^ 2) :
    hmuGetSize (hmuSetUt type header) = hmuGetSize header := by
  rw [hmuGetSize,hmuSetUt,getBits_setBits_of_disjoint header (by decide) (by decide) h (by decide)]
  rfl

@[simp] theorem hmuGetSize_markPinuse : hmuGetSize (hmuMarkPinuse header) = hmuGetSize header := by
  rw [hmuGetSize,hmuMarkPinuse,getBits_setBit header (by decide) (by decide) (by decide)]
  rfl

@[simp] theorem hmuGetSize_unmarkPinuse : hmuGetSize (hmuUnmarkPinuse header) = hmuGetSize header := by
  rw [hmuGetSize,hmuUnmarkPinuse,getBits_clrBit header (by decide) (by decide) (by decide)]
  rfl

@[simp] theorem hmuGetSize_unfreeVo : hmuGetSize (hmuUnfreeVo header) = hmuGetSize header := by
  rw [hmuGetSize,hmuUnfreeVo,getBits_clrBit header (by decide) (by decide) (by decide)]
  rfl

@[simp] theorem hmuGetUt_setUt {type : BitVec 32} (h : type.toNat < 2 ^ 2) :
    hmuGetUt (hmuSetUt type header) = type := getBits_setBits header (by decide) (by decide) h

@[simp] theorem hmuGetUt_setSize {size : ℤ} (h : Fits size) :
    hmuGetUt (hmuSetSize size header) = hmuGetUt header :=
  getBits_setBits_of_disjoint header (by decide) (by decide) h.field (by decide)

@[simp] theorem hmuGetUt_markPinuse : hmuGetUt (hmuMarkPinuse header) = hmuGetUt header :=
  getBits_setBit header (by decide) (by decide) (by decide)

@[simp] theorem hmuGetUt_unmarkPinuse : hmuGetUt (hmuUnmarkPinuse header) = hmuGetUt header :=
  getBits_clrBit header (by decide) (by decide) (by decide)

@[simp] theorem hmuGetUt_unfreeVo : hmuGetUt (hmuUnfreeVo header) = hmuGetUt header :=
  getBits_clrBit header (by decide) (by decide) (by decide)

@[simp] theorem hmuGetPinuse_markPinuse : hmuGetPinuse (hmuMarkPinuse header) = true :=
  getBit_setBit header (by decide)

@[simp] theorem hmuGetPinuse_unmarkPinuse : hmuGetPinuse (hmuUnmarkPinuse header) = false :=
  getBit_clrBit header (by decide)

@[simp] theorem hmuGetPinuse_setUt {type : BitVec 32} (h : type.toNat < 2 ^ 2) :
    hmuGetPinuse (hmuSetUt type header) = hmuGetPinuse header :=
  getBit_setBits_of_disjoint header (by decide) (by decide) h (by decide)

@[simp] theorem hmuGetPinuse_setSize {size : ℤ} (h : Fits size) :
    hmuGetPinuse (hmuSetSize size header) = hmuGetPinuse header :=
  getBit_setBits_of_disjoint header (by decide) (by decide) h.field (by decide)

@[simp] theorem hmuGetPinuse_unfreeVo : hmuGetPinuse (hmuUnfreeVo header) = hmuGetPinuse header :=
  getBit_clrBit_of_ne header (by decide) (by decide) (by decide)

@[simp] theorem hmuIsVoFreed_unfreeVo : hmuIsVoFreed (hmuUnfreeVo header) = false :=
  getBit_clrBit header (by decide)

@[simp] theorem hmuIsVoFreed_setSize {size : ℤ} (h : Fits size) :
    hmuIsVoFreed (hmuSetSize size header) = hmuIsVoFreed header :=
  getBit_setBits_of_disjoint header (by decide) (by decide) h.field (by decide)

@[simp] theorem hmuIsVoFreed_unmarkPinuse :
    hmuIsVoFreed (hmuUnmarkPinuse header) = hmuIsVoFreed header :=
  getBit_clrBit_of_ne header (by decide) (by decide) (by decide)

@[simp] theorem hmuIsVoFreed_markPinuse : hmuIsVoFreed (hmuMarkPinuse header) = hmuIsVoFreed header := by
  rw [hmuIsVoFreed,hmuMarkPinuse,setBit_eq header 29 (by decide)]
  exact getBit_setBits_of_disjoint header (by decide) (by decide) (by decide) (by decide)

end Fields

end WamrTest.Ems
