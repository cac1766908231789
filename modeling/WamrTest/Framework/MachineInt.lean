import Mathlib.Data.Int.ModEq
import Mathlib.Algebra.Order.Ring.Int

/-!
# Conversions between `int`, `unsigned` and `size_t`
-/

namespace MachineInt

/-- An `int` converted to an unsigned size of `w` bits. -/
def sizeT (w : ℕ) (n : Int32) : ℕ := (n.toInt % 2 ^ w).toNat

theorem sizeT_of_nonneg {w : ℕ} {n : Int32} (hw : 31 ≤ w) (h : 0 ≤ n.toInt) :
    sizeT w n = n.toInt.toNat := by
  have hlt := n.toInt_lt
  have hpow : (2 : ℤ) ^ 31 ≤ 2 ^ w := pow_le_pow_right₀ (by decide) hw
  rw [sizeT,Int.emod_eq_of_lt h (by omega)]

/-- A negative `int` becomes a size beyond every `int`. -/
theorem sizeT_of_neg {w : ℕ} {n : Int32} (hw : 32 ≤ w) (h : n.toInt < 0) : 2 ^ 31 ≤ sizeT w n := by
  have hle := n.le_toInt
  have hpow : (2 : ℤ) ^ 32 ≤ 2 ^ w := pow_le_pow_right₀ (by decide) hw
  rw [sizeT,← Int.add_emod_right,Int.emod_eq_of_lt (by omega) (by omega)]
  omega

theorem toInt_sub_of_le {n p : Int32} (h0 : 0 ≤ p.toInt) (h : p.toInt ≤ n.toInt) :
    (n - p).toInt = n.toInt - p.toInt := by
  have hlt := n.toInt_lt
  rw [Int32.toInt_sub]
  exact Int.bmod_eq_of_le (by omega) (by omega)

theorem toInt_toInt32_of_lt {x : UInt32} (h : x.toNat < 2 ^ 31) : x.toInt32.toInt = x.toNat := by
  change x.toBitVec.toInt = x.toBitVec.toNat
  apply BitVec.toInt_eq_toNat_of_lt
  change 2 * x.toNat < 2 ^ 32
  omega

theorem toNat_toUInt32_of_nonneg {n : Int32} (h : 0 ≤ n.toInt) : n.toUInt32.toNat = n.toInt.toNat := by
  have hle : 0 ≤ n := Int32.le_iff_toInt_le.mpr h
  rw [Int32.toNat_toUInt32_of_le hle]
  rfl

theorem toInt_ofNat_of_lt {n : ℕ} (h : n < 2 ^ 31) : (Int32.ofNat n).toInt = n :=
  Int32.toInt_ofNat_of_lt h

theorem sizeT_ofNat {w n : ℕ} (hw : 31 ≤ w) (h : n < 2 ^ 31) : sizeT w (Int32.ofNat n) = n := by
  have hn := toInt_ofNat_of_lt h
  rw [sizeT_of_nonneg hw (by omega),hn]
  rfl

theorem sizeT_32_ofNat (n : ℕ) : sizeT 32 (Int32.ofNat n) = n % 2 ^ 32 := by
  have h : (Int32.ofNat n).toInt = (n : ℤ).bmod (2 ^ 32) := Int32.toInt_ofNat'
  have hmod : (n : ℤ).bmod (2 ^ 32) % (2 ^ 32 : ℕ) = (n : ℤ) % (2 ^ 32 : ℕ) := Int.bmod_emod
  rw [sizeT,h]
  omega

/-- A number kept in a signed variable of `w` bits. -/
def wrap (w : ℕ) (x : ℤ) : ℤ := x.bmod (2 ^ w)

theorem wrap_succ_eq_iff {w : ℕ} {x : ℤ} : wrap (w+1) x = x ↔ -2 ^ w ≤ x ∧ x < 2 ^ w := by
  have hpos : 0 < 2 ^ (w+1) := Nat.two_pow_pos (w+1)
  have hpow : ((2 ^ (w+1) : ℕ) : ℤ) = 2 ^ w * 2 := by
    rw [pow_succ]
    push_cast
    rfl
  unfold wrap
  constructor
  · intro h
    have hlow := Int.le_bmod (x := x) hpos
    have hhigh := Int.bmod_lt (x := x) hpos
    omega
  · intro h
    apply Int.bmod_eq_of_le
    · omega
    · omega

end MachineInt
