import WamrTest.Framework.Horner
import WamrTest.Udf.UserId

/-!
# The hash of an IMEI

`hash` is a polynomial in 31 reduced modulo 2^32, and no value of it is set aside for a missing id.
-/

namespace WamrTest.Kernel

open Horner Proto3

variable {s : List UInt8}

/-- The bytes of a string as the digits of a number in base 31. -/
def polynomial (s : List UInt8) : ℕ := value 31 (s.map UInt8.toNat)

private theorem polynomial_append (s t : List UInt8) :
    polynomial (s ++ t) = 31 ^ t.length * polynomial s + polynomial t := by
  rw [polynomial,List.map_append,value_append,List.length_map]
  rfl

/-- The loop of `hash` on 32 bits is the one on all numbers. -/
theorem hash_eq (hs : 0 ∉ s) : hash s = UInt32.ofNat (polynomial s) := by
  have hchars : s.takeWhile (· ≠ 0) = s := CString.chars_of_not_mem hs
  have hzero : (0 : UInt32) = UInt32.ofNat 0 := rfl
  rw [hash,hchars,polynomial,← foldl_eq_value,List.foldl_map,hzero]
  apply List.foldl_hom UInt32.ofNat
  intro v p
  have hp : UInt32.ofNat p.toNat = p.toUInt32 := by
    rw [← UInt8.toNat_toUInt32,UInt32.ofNat_toNat]
  rw [UInt32.ofNat_add,UInt32.ofNat_mul,hp]
  rfl

private theorem hash_eq_iff (hs : 0 ∉ s) (h : UInt32) :
    hash s = h ↔ polynomial s ≡ h.toNat [MOD 2 ^ 32] := by
  rw [hash_eq hs,← UInt32.toNat_inj,UInt32.toNat_ofNat',Nat.ModEq,Nat.mod_eq_of_lt h.toNat_lt]

private theorem hash_eq_zero_iff (hs : 0 ∉ s) : hash s = 0 ↔ 2 ^ 32 ∣ polynomial s :=
  (hash_eq_iff hs 0).trans Nat.modEq_zero_iff_dvd

private theorem byte_bounds (hs : 0 ∉ s) : ∀ d ∈ s.map UInt8.toNat, 1 ≤ d ∧ d ≤ 255 := by
  intro d hd
  obtain ⟨p,hp,rfl⟩ := List.mem_map.mp hd
  have hlt := p.toNat_lt
  have hne : p.toNat ≠ 0 := by
    intro hz
    have hp0 : p = 0 := UInt8.toNat_inj.mp hz
    exact hs (hp0 ▸ hp)
  omega

private theorem hash_ne_zero_of_short (hs : 0 ∉ s) (hne : s ≠ []) (hlen : s.length ≤ 5) : hash s ≠ 0 := by
  intro hz
  have hdvd := (hash_eq_zero_iff hs).mp hz
  obtain ⟨hlow,hhigh⟩ := value_bounds (b := 31) (byte_bounds hs)
  rw [List.length_map] at hlow hhigh
  have hfirst : repunit 31 1 ≤ repunit 31 s.length :=
    repunit_mono (by decide) (List.length_pos_iff.mpr hne)
  have hlast : repunit 31 s.length ≤ repunit 31 5 := repunit_mono (by decide) hlen
  have hone : repunit 31 1 = 1 := by decide
  have hfive : 255 * repunit 31 5 < 2 ^ 32 := by decide
  have hpos : 0 < polynomial s := by
    unfold polynomial
    omega
  have hle := Nat.le_of_dvd hpos hdvd
  unfold polynomial at hle
  omega

private theorem toNat_bytes {ds : List ℕ} (h : ∀ d ∈ ds, d ≤ 255) :
    (ds.map UInt8.ofNat).map UInt8.toNat = ds := by
  have hbyte : ∀ d ∈ ds, (UInt8.ofNat d).toNat = d := by
    intro d hd
    have hle := h d hd
    rw [UInt8.toNat_ofNat',Nat.mod_eq_of_lt (by omega)]
  rw [List.map_map]
  exact (List.map_congr_left hbyte).trans (List.map_id' ds)

private theorem exists_append_hash (hs : 0 ∉ s) (h : UInt32) :
    ∃ t : List UInt8, t.length = 6 ∧ 0 ∉ t ∧ hash (s ++ t) = h := by
  -- the digits are to make up for what the first bytes have contributed
  obtain ⟨ds,hlen,hds,hvalue⟩ : ∃ ds : List ℕ, ds.length = 6 ∧ (∀ d ∈ ds, 1 ≤ d ∧ d ≤ 255) ∧
      value 31 ds ≡ h.toNat + (2 ^ 32 - 1) * (31 ^ 6 * polynomial s) [MOD 2 ^ 32] :=
    exists_modEq (by decide) (by decide) (by decide) (by decide) _
  have hmap : (ds.map UInt8.ofNat).map UInt8.toNat = ds := toNat_bytes fun d hd => (hds d hd).2
  have hzero : 0 ∉ ds.map UInt8.ofNat := by
    intro hmem
    have hnat : (0 : UInt8).toNat ∈ (ds.map UInt8.ofNat).map UInt8.toNat := List.mem_map_of_mem hmem
    rw [hmap] at hnat
    exact absurd (hds _ hnat).1 (by decide)
  have hall : 0 ∉ s ++ ds.map UInt8.ofNat := by
    rw [List.mem_append]
    exact not_or.mpr ⟨hs,hzero⟩
  have hsuffix : polynomial (ds.map UInt8.ofNat) = value 31 ds := congrArg (value 31) hmap
  refine ⟨ds.map UInt8.ofNat,?_,hzero,?_⟩
  · rw [List.length_map,hlen]
  · rw [hash_eq_iff hall,polynomial_append,List.length_map,hlen,hsuffix]
    rw [Nat.ModEq] at hvalue ⊢
    omega

private theorem zero_not_mem_replace {p q : List UInt8} {x y : UInt8} (h : 0 ∉ p ++ x::q) (hy : y ≠ 0) :
    0 ∉ p ++ y::q := by
  intro hmem
  rcases List.mem_append.mp hmem with hp | hq
  · exact h (List.mem_append_left _ hp)
  · rcases List.mem_cons.mp hq with hz | hq
    · exact hy hz.symm
    · exact h (List.mem_append_right _ (List.mem_cons_of_mem x hq))

private theorem byte_eq_of_hash_eq {p q : List UInt8} {x y : UInt8} (hx : 0 ∉ p ++ x::q)
    (hy : 0 ∉ p ++ y::q) (h : hash (p ++ x::q) = hash (p ++ y::q)) : x = y := by
  have hmod := (hash_eq_iff hx (hash (p ++ y::q))).mp h
  have hmod' := (hash_eq_iff hy (hash (p ++ y::q))).mp rfl
  have hvalue := hmod.trans hmod'.symm
  simp only [polynomial,List.map_append,List.map_cons] at hvalue
  have hdigit := modEq_of_value (by decide : Nat.Coprime (2 ^ 32) 31) hvalue
  have hxlt := x.toNat_lt
  have hylt := y.toNat_lt
  apply UInt8.toNat_inj.mp
  exact hdigit.eq_of_lt_of_lt (by omega) (by omega)

/-- The id is `"0"` where the hash is 0, which is where 2^32 divides the polynomial of the IMEI. No
IMEI of up to five bytes is such; any string becomes one by six more bytes, and ceases to be one
when a byte is changed. -/
theorem id_eq_zero_iff (s : List UInt8) (hs : 0 ∉ s) :
    (decimal (hash s) = [48] ↔ hash s = 0) ∧
      (hash s = 0 ↔ 2 ^ 32 ∣ polynomial s) ∧
      (s ≠ [] → s.length ≤ 5 → hash s ≠ 0) ∧
      (∃ t : List UInt8, t.length = 6 ∧ 0 ∉ t ∧ hash (s ++ t) = 0) ∧
      ∀ p x q y, s = p ++ x::q → y ≠ 0 → x ≠ y → hash s = 0 → hash (p ++ y::q) ≠ 0 := by
  refine ⟨decimal_eq_zero,hash_eq_zero_iff hs,hash_ne_zero_of_short hs,exists_append_hash hs 0,?_⟩
  intro p x q y heq hy hne h h'
  rw [heq] at hs h
  apply hne
  apply byte_eq_of_hash_eq hs (zero_not_mem_replace hs hy)
  rw [h,h']

theorem id_eq_zero_iff_sample :
    hash [57, 52] ≠ 0 ∧
      ∃ t : List UInt8, t.length = 6 ∧ 0 ∉ t ∧ hash ([57, 52] ++ t) = 0 := by
  have h94 := id_eq_zero_iff [57, 52] (by decide)
  exact ⟨h94.2.2.1 (by decide) (by decide),h94.2.2.2.1⟩

/-- The IMEI 350082659032100, with its check digit, and the 14 digits 10000764637028. -/
theorem imei_hashes_to_zero :
    let imei : List UInt8 := [51, 53, 48, 48, 56, 50, 54, 53, 57, 48, 51, 50, 49, 48, 48]
    let short : List UInt8 := [49, 48, 48, 48, 48, 55, 54, 52, 54, 51, 55, 48, 50, 56]
    imei ≠ [] ∧ 0 ∉ imei ∧ hash imei = 0 ∧ short ≠ [] ∧ 0 ∉ short ∧ hash short = 0 ∧
      Reference.buildUserId none (some imei) = [48] ∧
      Reference.buildUserId none (some imei) = Reference.buildUserId none none := by
  intro imei short
  have himei : hash imei = 0 := by decide
  exact ⟨by decide,by decide,himei,by decide,by decide,by decide,by decide,by decide⟩

end WamrTest.Kernel
