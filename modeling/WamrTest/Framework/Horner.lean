import Mathlib.Algebra.Order.Ring.Int
import Mathlib.Data.Int.ModEq
import Mathlib.Data.List.Induction
import Mathlib.Data.Nat.Digits.Defs
import Mathlib.Data.Nat.ModEq
import Mathlib.Order.Monotone.Basic
import Mathlib.Tactic.Ring

/-!
# Values of digit strings

Digits with the most significant one first, in a base they may exceed. Digits from a window at
least as wide as the base reach every number between the least and the greatest of their length,
and in a base prime to the modulus no digit can be changed without changing the residue.
-/

namespace Horner

def value (b : ℕ) (ds : List ℕ) : ℕ := Nat.ofDigits b ds.reverse

def repunit (b : ℕ) : ℕ → ℕ
  | 0 => 0
  | n+1 => b * repunit b n + 1

variable {b lo hi m : ℕ}

theorem value_append (b : ℕ) (p q : List ℕ) :
    value b (p ++ q) = b ^ q.length * value b p + value b q := by
  rw [value,List.reverse_append,Nat.ofDigits_append,List.length_reverse,add_comm]
  rfl

theorem value_concat (b : ℕ) (ds : List ℕ) (d : ℕ) : value b (ds ++ [d]) = b * value b ds + d := by
  rw [value_append,List.length_singleton,pow_one]
  rfl

/-- The method of Horner. -/
theorem foldl_eq_value (b : ℕ) (ds : List ℕ) : ds.foldl (fun v d => b * v + d) 0 = value b ds := by
  induction ds using List.reverseRecOn with
  | nil => rfl
  | append_singleton ds d ih => rw [List.foldl_append,List.foldl_cons,List.foldl_nil,ih,value_concat]

theorem repunit_mono (hb : 0 < b) : Monotone (repunit b) := by
  apply monotone_nat_of_le_succ
  intro n
  exact (Nat.le_mul_of_pos_left _ hb).trans (Nat.le_succ _)

theorem value_bounds {ds : List ℕ} (h : ∀ d ∈ ds, lo ≤ d ∧ d ≤ hi) :
    lo * repunit b ds.length ≤ value b ds ∧ value b ds ≤ hi * repunit b ds.length := by
  induction ds using List.reverseRecOn with
  | nil => exact ⟨le_rfl,le_rfl⟩
  | append_singleton ds d ih =>
    obtain ⟨hlow,hhigh⟩ := ih fun e he => h e (List.mem_append_left _ he)
    obtain ⟨hd,hd'⟩ := h d (List.mem_append_right _ List.mem_cons_self)
    rw [List.length_append,List.length_singleton,repunit,value_concat]
    constructor
    · calc lo * (b * repunit b ds.length + 1) = b * (lo * repunit b ds.length) + lo := by ring
        _ ≤ b * value b ds + d := Nat.add_le_add (Nat.mul_le_mul_left b hlow) hd
    · calc b * value b ds + d ≤ b * (hi * repunit b ds.length) + hi :=
            Nat.add_le_add (Nat.mul_le_mul_left b hhigh) hd'
        _ = hi * (b * repunit b ds.length + 1) := by ring

theorem exists_last (hb : 0 < b) (hw : b + lo ≤ hi + 1) {r v : ℕ} (hl : lo * (b * r + 1) ≤ v)
    (hh : v ≤ hi * (b * r + 1)) :
    ∃ q d, v = b * q + d ∧ (lo ≤ d ∧ d ≤ hi) ∧ lo * r ≤ q ∧ q ≤ hi * r := by
  have hlow : lo * r * b + lo ≤ v := by
    calc lo * r * b + lo = lo * (b * r + 1) := by ring
      _ ≤ v := hl
  have hhigh : v ≤ b * (hi * r) + hi := by
    calc v ≤ hi * (b * r + 1) := hh
      _ = b * (hi * r) + hi := by ring
  have hq : lo * r ≤ (v - lo) / b := (Nat.le_div_iff_mul_le hb).mpr (by omega)
  have hdiv := Nat.div_add_mod (v - lo) b
  have hmod := Nat.mod_lt (v - lo) hb
  by_cases hcap : (v - lo) / b ≤ hi * r
  · exact ⟨(v - lo) / b,lo + (v - lo) % b,by omega,⟨by omega,by omega⟩,hq,hcap⟩
  · -- the digits before are as large as they get, and the last one takes the rest
    have hmul : b * (hi * r) ≤ b * ((v - lo) / b) := Nat.mul_le_mul_left b (by omega)
    exact ⟨hi * r,v - b * (hi * r),by omega,⟨by omega,by omega⟩,
      Nat.mul_le_mul_right r (by omega),le_rfl⟩

private theorem exists_value (hb : 0 < b) (hw : b + lo ≤ hi + 1) {n v : ℕ} (hl : lo * repunit b n ≤ v)
    (hh : v ≤ hi * repunit b n) :
    ∃ ds : List ℕ, ds.length = n ∧ (∀ d ∈ ds, lo ≤ d ∧ d ≤ hi) ∧ value b ds = v := by
  induction n generalizing v with
  | zero => exact ⟨[],rfl,List.forall_mem_nil _,(Nat.le_zero.mp hh).symm⟩
  | succ n ih =>
    obtain ⟨q,d,hv,hd,hlow,hhigh⟩ := exists_last hb hw hl hh
    obtain ⟨ds,hlen,hds,hq⟩ := ih hlow hhigh
    refine ⟨ds ++ [d],?_,?_,?_⟩
    · rw [List.length_append,hlen,List.length_singleton]
    · exact List.forall_mem_append.mpr ⟨hds,List.forall_mem_singleton.mpr hd⟩
    · rw [value_concat,hq,hv]

/-- Digits enough for as many numbers as there are residues reach every residue. -/
theorem exists_modEq (hb : 0 < b) (hw : b + lo ≤ hi + 1) (hm : 0 < m) {n : ℕ}
    (hspan : lo * repunit b n + m ≤ hi * repunit b n + 1) (r : ℕ) :
    ∃ ds : List ℕ, ds.length = n ∧ (∀ d ∈ ds, lo ≤ d ∧ d ≤ hi) ∧ value b ds ≡ r [MOD m] := by
  have hpos := Int.emod_nonneg ((r : ℤ) - (lo * repunit b n : ℕ)) (show (m : ℤ) ≠ 0 by omega)
  have hlt := Int.emod_lt_of_pos ((r : ℤ) - (lo * repunit b n : ℕ)) (show (0 : ℤ) < m by omega)
  obtain ⟨k,hk⟩ := Int.eq_ofNat_of_zero_le hpos
  rw [hk] at hlt
  obtain ⟨ds,hlen,hds,hvalue⟩ := exists_value hb hw (n := n) (v := lo * repunit b n + k)
    (by omega) (by omega)
  refine ⟨ds,hlen,hds,?_⟩
  rw [hvalue,← Int.natCast_modEq_iff,Nat.cast_add,← hk]
  calc ((lo * repunit b n : ℕ) : ℤ) + ((r : ℤ) - (lo * repunit b n : ℕ)) % m
      ≡ (lo * repunit b n : ℕ) + ((r : ℤ) - (lo * repunit b n : ℕ)) [ZMOD m] :=
        (Int.mod_modEq _ _).add_left _
    _ = r := by ring

theorem modEq_of_value (hbm : Nat.Coprime m b) {p q : List ℕ} {x y : ℕ}
    (h : value b (p ++ x::q) ≡ value b (p ++ y::q) [MOD m]) : x ≡ y [MOD m] := by
  have hsplit (d : ℕ) : value b (p ++ d::q) =
      b ^ q.length * (b * value b p + d) + value b q := by
    rw [List.append_cons,value_append,value_concat]
  rw [hsplit,hsplit] at h
  have hhead := Nat.ModEq.add_right_cancel' _ h
  have hdigit := Nat.ModEq.cancel_left_of_coprime (Nat.Coprime.pow_right q.length hbm) hhead
  exact Nat.ModEq.add_left_cancel' _ hdigit

end Horner
