import Mathlib.Data.Nat.Bitwise

/-!
# Bit fields of a word

A field of `size` bits at `offset`. Writing one field leaves the others alone, and reading it back
gives what was written if that fits.
-/

namespace BitField

variable {w : ℕ}

/-- The word whose lowest `size` bits are set. -/
def ones (w size : ℕ) : BitVec w := (1#w <<< size) - 1#w

def getBits (v : BitVec w) (offset size : ℕ) : BitVec w := (v &&& ones w size <<< offset) >>> offset

def setBits (v : BitVec w) (offset size : ℕ) (value : BitVec w) : BitVec w :=
  (v &&& ~~~(ones w size <<< offset)) ||| value <<< offset

def setBit (v : BitVec w) (offset : ℕ) : BitVec w := v ||| 1#w <<< offset

def clrBit (v : BitVec w) (offset : ℕ) : BitVec w := v &&& ~~~(1#w <<< offset)

def getBit (v : BitVec w) (offset : ℕ) : Bool := v &&& 1#w <<< offset != 0#w

private theorem getLsbD_ones {size : ℕ} (h : size < w) (i : ℕ) : (ones w size).getLsbD i = decide (i < size) := by
  have hpow : 2 ^ size < 2 ^ w := Nat.pow_lt_pow_right (by decide) h
  have hpos : 0 < 2 ^ size := Nat.two_pow_pos size
  have hone : (1#w).toNat = 1 := by
    rw [BitVec.toNat_ofNat]
    exact Nat.mod_eq_of_lt (by omega)
  have hshift : (1#w <<< size).toNat = 2 ^ size := by
    rw [BitVec.toNat_shiftLeft,hone,Nat.shiftLeft_eq,one_mul,Nat.mod_eq_of_lt hpow]
  have hnat : (ones w size).toNat = 2 ^ size - 1 := by
    rw [ones,BitVec.toNat_sub,hshift,hone]
    have hsum : 2 ^ w - 1 + 2 ^ size = 2 ^ size - 1 + 2 ^ w := by omega
    rw [hsum,Nat.add_mod_right,Nat.mod_eq_of_lt (by omega)]
  rw [BitVec.getLsbD,hnat,Nat.testBit_two_pow_sub_one]

private theorem getLsbD_getBits (v : BitVec w) {offset size : ℕ} (h : size < w) (i : ℕ) :
    (getBits v offset size).getLsbD i = (decide (i < size) && v.getLsbD (offset + i)) := by
  rw [getBits,BitVec.getLsbD_ushiftRight,BitVec.getLsbD_and,BitVec.getLsbD_shiftLeft,getLsbD_ones h]
  by_cases hi : offset + i < w
  · simp [hi,Nat.not_lt.mpr (Nat.le_add_right offset i),Bool.and_comm]
  · rw [BitVec.getLsbD_of_ge v _ (by omega)]
    simp

private theorem getLsbD_setBits (v value : BitVec w) {offset size : ℕ} (h : size < w) {i : ℕ} (hi : i < w)
    (hvalue : value.toNat < 2 ^ size) :
    (setBits v offset size value).getLsbD i =
      if offset ≤ i ∧ i < offset + size then value.getLsbD (i - offset) else v.getLsbD i := by
  have hhigh (k : ℕ) (hk : size ≤ k) : value.getLsbD k = false :=
    Nat.testBit_lt_two_pow (hvalue.trans_le (Nat.pow_le_pow_right (by decide) hk))
  rw [setBits,BitVec.getLsbD_or,BitVec.getLsbD_and,BitVec.getLsbD_not,BitVec.getLsbD_shiftLeft,
    BitVec.getLsbD_shiftLeft,getLsbD_ones h]
  by_cases hlow : offset ≤ i
  · by_cases hin : i < offset + size
    · simp [hi,hlow,hin,Nat.not_lt.mpr hlow,show i - offset < size by omega]
    · simp [hi,hlow,hin,Nat.not_lt.mpr hlow,show ¬ i - offset < size by omega,hhigh (i - offset) (by omega)]
  · simp [hi,hlow,Nat.lt_of_not_le hlow]

theorem getBits_setBits (v : BitVec w) {value : BitVec w} {offset size : ℕ} (hsize : size < w)
    (hw : offset + size ≤ w) (hvalue : value.toNat < 2 ^ size) :
    getBits (setBits v offset size value) offset size = value := by
  apply BitVec.eq_of_getLsbD_eq
  intro i hi
  rw [getLsbD_getBits _ hsize]
  by_cases his : i < size
  · rw [getLsbD_setBits v value hsize (by omega) hvalue,if_pos (by omega)]
    simp [his]
  · have hhigh : value.getLsbD i = false :=
      Nat.testBit_lt_two_pow (hvalue.trans_le (Nat.pow_le_pow_right (by decide) (by omega)))
    simp [his,hhigh]

theorem getBits_setBits_of_disjoint (v : BitVec w) {value : BitVec w} {offset size offset' size' : ℕ}
    (hsize : size < w) (hsize' : size' < w) (hvalue : value.toNat < 2 ^ size)
    (h : offset + size ≤ offset' ∨ offset' + size' ≤ offset) :
    getBits (setBits v offset size value) offset' size' = getBits v offset' size' := by
  apply BitVec.eq_of_getLsbD_eq
  intro i hi
  rw [getLsbD_getBits _ hsize',getLsbD_getBits _ hsize']
  by_cases his : i < size'
  · by_cases hw : offset' + i < w
    · rw [getLsbD_setBits v value hsize hw hvalue,if_neg (by omega)]
    · rw [BitVec.getLsbD_of_ge _ _ (Nat.le_of_not_lt hw),BitVec.getLsbD_of_ge _ _ (Nat.le_of_not_lt hw)]
  · simp [his]

/-- A single bit is a field of size 1. -/
theorem setBit_eq (v : BitVec w) (offset : ℕ) (h : 1 < w) : setBit v offset = setBits v offset 1 1#w := by
  apply BitVec.eq_of_getLsbD_eq
  intro i hi
  have hone : (1#w).toNat < 2 ^ 1 := by
    rw [BitVec.toNat_ofNat]
    exact (Nat.mod_le _ _).trans_lt (by decide)
  rw [getLsbD_setBits v _ h hi hone,setBit,BitVec.getLsbD_or,BitVec.getLsbD_shiftLeft]
  by_cases hlow : offset ≤ i
  · by_cases hin : i < offset + 1
    · have heq : i = offset := by omega
      simp [heq,show offset < w by omega,show 0 < w by omega]
    · simp [hlow,hin,show ¬ i - offset = 0 by omega]
  · simp [hlow,Nat.lt_of_not_le hlow]

theorem clrBit_eq (v : BitVec w) (offset : ℕ) (h : 1 < w) : clrBit v offset = setBits v offset 1 0#w := by
  have hones : ones w 1 = 1#w := by
    apply BitVec.eq_of_getLsbD_eq
    intro i hi
    rw [getLsbD_ones h]
    simp [BitVec.getLsbD_one]
    omega
  rw [clrBit,setBits,hones]
  simp

theorem getBit_eq (v : BitVec w) (offset : ℕ) (h : offset < w) : getBit v offset = v.getLsbD offset := by
  rw [getBit]
  cases hbit : v.getLsbD offset with
  | true =>
    rw [bne_iff_ne]
    intro hz
    have hbits := congrArg (fun u => BitVec.getLsbD u offset) hz
    rw [BitVec.getLsbD_eq_getElem h] at hbit
    simp [hbit,h] at hbits
  | false =>
    have hz : v &&& 1#w <<< offset = 0#w := by
      apply BitVec.eq_of_getLsbD_eq
      intro i hi
      rw [BitVec.getLsbD_and,BitVec.getLsbD_shiftLeft]
      by_cases hio : i = offset
      · rw [hio,hbit]
        simp
      · by_cases hlow : i < offset
        · simp [hlow]
        · simp [BitVec.getLsbD_one,show ¬ i - offset = 0 by omega]
    rw [hz]
    simp

theorem getBit_setBits_of_disjoint (v : BitVec w) {value : BitVec w} {offset size i : ℕ} (hsize : size < w)
    (hi : i < w) (hvalue : value.toNat < 2 ^ size) (h : offset + size ≤ i ∨ i < offset) :
    getBit (setBits v offset size value) i = getBit v i := by
  rw [getBit_eq _ i hi,getBit_eq _ i hi,getLsbD_setBits v value hsize hi hvalue,if_neg (by omega)]

@[simp] theorem getBit_setBit (v : BitVec w) {i : ℕ} (h : i < w) : getBit (setBit v i) i = true := by
  rw [getBit_eq _ i h,setBit]
  simp [h]

@[simp] theorem getBit_clrBit (v : BitVec w) {i : ℕ} (h : i < w) : getBit (clrBit v i) i = false := by
  rw [getBit_eq _ i h,clrBit]
  simp [h]

theorem getBits_setBit (v : BitVec w) {i offset size : ℕ} (hw : 1 < w) (hsize : size < w)
    (h : i + 1 ≤ offset ∨ offset + size ≤ i) : getBits (setBit v i) offset size = getBits v offset size := by
  rw [setBit_eq v i hw]
  apply getBits_setBits_of_disjoint v hw hsize _ h
  rw [BitVec.toNat_ofNat]
  exact (Nat.mod_le _ _).trans_lt (by decide)

theorem getBits_clrBit (v : BitVec w) {i offset size : ℕ} (hw : 1 < w) (hsize : size < w)
    (h : i + 1 ≤ offset ∨ offset + size ≤ i) : getBits (clrBit v i) offset size = getBits v offset size := by
  rw [clrBit_eq v i hw]
  exact getBits_setBits_of_disjoint v hw hsize (by simp) h

theorem getBit_clrBit_of_ne (v : BitVec w) {i j : ℕ} (hw : 1 < w) (hj : j < w) (h : i ≠ j) :
    getBit (clrBit v i) j = getBit v j := by
  rw [clrBit_eq v i hw]
  exact getBit_setBits_of_disjoint v hw hj (by simp) (by omega)

end BitField
