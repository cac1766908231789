import WamrTest.Udf.Route
import Mathlib.Data.Nat.Fib.Basic

/-!
# Fibonacci numbers in an `int`

`_fib` of the guest and `fib` of `test/native/main.c` make two recursive calls each and add what
they return. The sums are exact as long as the Fibonacci numbers are below 2^31.
-/

namespace WamrTest

open ByteMemory MachineInt Proto3

private theorem fib_calls {n : Int32} (h : ¬ n ≤ 1) :
    1 < n.toInt ∧ (n - 1).toInt = n.toInt - 1 ∧ (n - 2).toInt = n.toInt - 2 := by
  have hn : (1 : Int32).toInt < n.toInt := Int32.lt_iff_toInt_lt.mp (Int32.not_le.mp h)
  have hone : (1 : Int32).toInt = 1 := by decide
  have htwo : (2 : Int32).toInt = 2 := by decide
  refine ⟨by omega,?_,?_⟩
  · rw [toInt_sub_of_le (by omega) (by omega),hone]
  · rw [toInt_sub_of_le (by omega) (by omega),htwo]

/-- `fib` of the native program, which makes the calls in the other order. -/
def nativeFib (n : Int32) : Int32 := if n ≤ 1 then n else nativeFib (n - 2) + nativeFib (n - 1)
termination_by n.toInt.toNat
decreasing_by
  all_goals
    have hcalls := fib_calls ‹¬ n ≤ 1›
    omega

/-- The operands of the additions `_fib` performs. -/
def fibAdditions (n : Int32) : List (Int32 × Int32) :=
  if n ≤ 1 then []
  else fibAdditions (n - 1) ++ fibAdditions (n - 2) ++ [(Kernel.fib (n - 1), Kernel.fib (n - 2))]
termination_by n.toInt.toNat
decreasing_by
  all_goals
    have hcalls := fib_calls ‹¬ n ≤ 1›
    omega

def nativeFibAdditions (n : Int32) : List (Int32 × Int32) :=
  if n ≤ 1 then []
  else nativeFibAdditions (n - 2) ++ nativeFibAdditions (n - 1) ++ [(nativeFib (n - 2), nativeFib (n - 1))]
termination_by n.toInt.toNat
decreasing_by
  all_goals
    have hcalls := fib_calls ‹¬ n ≤ 1›
    omega

def SumFits (operands : Int32 × Int32) : Prop :=
  -2 ^ 31 ≤ operands.1.toInt + operands.2.toInt ∧ operands.1.toInt + operands.2.toInt < 2 ^ 31

/-- What `_fib` is meant to compute. -/
def fibonacci (n : ℤ) : ℤ := if n ≤ 1 then n else Nat.fib n.toNat

private theorem fibonacci_of_nonneg {n : ℤ} (h : 0 ≤ n) : fibonacci n = Nat.fib n.toNat := by
  by_cases hn : n ≤ 1
  · rw [fibonacci,if_pos hn]
    have hcases : n = 0 ∨ n = 1 := by omega
    rcases hcases with rfl | rfl <;> rfl
  · exact if_neg hn

private theorem fibonacci_add {n : ℤ} (h : 1 < n) : fibonacci (n - 1) + fibonacci (n - 2) = fibonacci n := by
  obtain ⟨k,rfl⟩ : ∃ k : ℕ, n = k + 2 := ⟨(n - 2).toNat,by omega⟩
  rw [fibonacci_of_nonneg (by omega),fibonacci_of_nonneg (by omega),fibonacci_of_nonneg (by omega)]
  rw [show ((k : ℤ) + 2 - 1).toNat = k + 1 by omega,show ((k : ℤ) + 2 - 2).toNat = k by omega,
    show ((k : ℤ) + 2).toNat = k + 2 by omega,Nat.fib_add_two]
  push_cast
  exact add_comm _ _

private theorem fibonacci_lt {n : ℤ} (h : n ≤ 46) : fibonacci n < 2 ^ 31 := by
  by_cases hn : n ≤ 1
  · rw [fibonacci,if_pos hn]
    omega
  · have hmono : Nat.fib n.toNat ≤ Nat.fib 46 := Nat.fib_mono (by omega)
    have hlast : Nat.fib 46 = 1836311903 := by decide
    rw [fibonacci,if_neg hn]
    omega

private theorem le_fibonacci {n : ℤ} (h : 46 < n) : 2 ^ 31 ≤ fibonacci n := by
  have hmono : Nat.fib 47 ≤ Nat.fib n.toNat := Nat.fib_mono (by omega)
  have hfirst : Nat.fib 47 = 2971215073 := by decide
  rw [fibonacci,if_neg (by omega)]
  omega

/-- A recursion whose additions all fit computes the Fibonacci number. -/
theorem fib_toInt {n : Int32} (h : ∀ operands ∈ fibAdditions n, SumFits operands) :
    (Kernel.fib n).toInt = fibonacci n.toInt := by
  induction n using Kernel.fib.induct with
  | case1 n hn =>
    have hle : n.toInt ≤ 1 := Int32.le_iff_toInt_le.mp hn
    rw [Kernel.fib,if_pos hn,fibonacci,if_pos hle]
  | case2 n hn ih1 ih2 =>
    obtain ⟨hlt,hpred,hpred'⟩ := fib_calls hn
    rw [fibAdditions,if_neg hn] at h
    simp only [List.forall_mem_append,List.forall_mem_singleton] at h
    obtain ⟨⟨h1,h2⟩,hlow,hhigh⟩ := h
    simp only at hlow hhigh
    rw [Kernel.fib,if_neg hn,Int32.toInt_add,Int.bmod_eq_of_le (by omega) (by omega),ih1 h1,ih2 h2,
      hpred,hpred',fibonacci_add hlt]

private theorem fibAdditions_fit {n : Int32} (h : n.toInt ≤ 46) :
    ∀ operands ∈ fibAdditions n, SumFits operands := by
  induction n using Kernel.fib.induct with
  | case1 n hn =>
    rw [fibAdditions,if_pos hn]
    exact List.forall_mem_nil _
  | case2 n hn ih1 ih2 =>
    obtain ⟨hlt,hpred,hpred'⟩ := fib_calls hn
    have h1 := ih1 (by omega)
    have h2 := ih2 (by omega)
    have hsum := fibonacci_add hlt
    have hbound := fibonacci_lt h
    have hpos : 0 ≤ fibonacci n.toInt := by
      rw [fibonacci_of_nonneg (by omega)]
      exact Int.natCast_nonneg _
    rw [fibAdditions,if_neg hn]
    simp only [List.forall_mem_append,List.forall_mem_singleton]
    refine ⟨⟨h1,h2⟩,?_,?_⟩
    · simp only [fib_toInt h1,fib_toInt h2,hpred,hpred']
      omega
    · simp only [fib_toInt h1,fib_toInt h2,hpred,hpred']
      omega

private theorem fibAdditions_fit_iff (n : Int32) :
    (∀ operands ∈ fibAdditions n, SumFits operands) ↔ n.toInt ≤ 46 := by
  constructor
  · intro h
    by_contra hn
    have hexact := fib_toInt h
    have hlarge := le_fibonacci (not_le.mp hn)
    have hlt := (Kernel.fib n).toInt_lt
    omega
  · exact fibAdditions_fit

private theorem nativeFib_eq (n : Int32) : nativeFib n = Kernel.fib n := by
  induction n using Kernel.fib.induct with
  | case1 n hn => rw [nativeFib,Kernel.fib,if_pos hn,if_pos hn]
  | case2 n hn ih1 ih2 => rw [nativeFib,Kernel.fib,if_neg hn,if_neg hn,ih1,ih2,Int32.add_comm]

/-- The native version adds the same numbers the other way round. -/
theorem nativeFibAdditions_fit_iff (n : Int32) :
    (∀ operands ∈ nativeFibAdditions n, SumFits operands) ↔
      ∀ operands ∈ fibAdditions n, SumFits operands := by
  induction n using Kernel.fib.induct with
  | case1 n hn => rw [nativeFibAdditions,fibAdditions,if_pos hn,if_pos hn]
  | case2 n hn ih1 ih2 =>
    have hswap (a b : Int32) : SumFits (a, b) ↔ SumFits (b, a) := by
      simp only [SumFits,add_comm]
    rw [nativeFibAdditions,fibAdditions,if_neg hn,if_neg hn]
    simp only [List.forall_mem_append,List.forall_mem_singleton,ih1,ih2,nativeFib_eq]
    rw [hswap,and_comm (a := ∀ operands ∈ fibAdditions (n - 2), SumFits operands)]

/-- In the response to a `Fib` request is the Fibonacci number, computed without overflow by the
guest's version and the native one, if and only if the number asked for is at most 46. -/
theorem fib_response_exact (num : Int32) (g : Guest Unit) (buf : Mem UInt8) (request : List UInt8)
    (hrequest : fibPack ⟨_, (Fib.message ⟨num, []⟩)⟩ = .ok request)
    (hbuf : slice buf 0 request.length = request) :
    ∃ response res, Responds g (fib wireFormat g buf (Int32.ofNat request.length)) response ∧
      unpack fibDescriptor response = some (Fib.message ⟨res, []⟩) ∧ nativeFib num = res ∧
      ((res.toInt = fibonacci num.toInt ∧ (∀ operands ∈ fibAdditions num, SumFits operands) ∧
          ∀ operands ∈ nativeFibAdditions num, SumFits operands) ↔ num.toInt ≤ 46) := by
  obtain rfl := Except.ok.inj ((packAs_own _).symm.trans hrequest)
  have hlen := fib_pack_length_le ⟨Kernel.fib num, []⟩ rfl
  refine ⟨_,Kernel.fib num,fib_responds g buf ⟨num, []⟩ rfl hbuf,
    unpack_fib rfl (hlen.trans_lt (by decide)),nativeFib_eq num,?_⟩
  rw [nativeFibAdditions_fit_iff,← fibAdditions_fit_iff]
  exact ⟨fun h => h.2.1,fun h => ⟨fib_toInt h,h,h⟩⟩

/-- The 47th Fibonacci number is 2971215073; the response says -1323752223. -/
theorem fib_response_wraps :
    fibonacci 47 = 2971215073 ∧ Kernel.fib 47 = -1323752223 ∧
      ¬ (∀ operands ∈ fibAdditions 47, SumFits operands) ∧
      ∃ response, Responds ⟨fun _ => 0, ()⟩
          (fib wireFormat ⟨fun _ => 0, ()⟩ (ofList 0 [8, 47]) 2) response ∧
        unpack fibDescriptor response = some (Fib.message ⟨-1323752223, []⟩) := by
  have h46 := fib_toInt (fibAdditions_fit (n := 46) (by decide))
  have h45 := fib_toInt (fibAdditions_fit (n := 45) (by decide))
  have hwrap : Kernel.fib 47 = -1323752223 := by
    apply Int32.toInt_inj.mp
    rw [Kernel.fib,if_neg (by decide),Int32.toInt_add]
    change ((Kernel.fib 46).toInt + (Kernel.fib 45).toInt).bmod (2 ^ 32) = _
    rw [h46,h45]
    decide
  refine ⟨by decide,hwrap,fun h => absurd ((fibAdditions_fit_iff 47).mp h) (by decide),?_⟩
  refine ⟨_,fib_responds ⟨fun _ => 0, ()⟩ (ofList 0 [8, 47]) ⟨47, []⟩ rfl (slice_ofList 0 [8, 47]),?_⟩
  have hlen := fib_pack_length_le ⟨Kernel.fib 47, []⟩ rfl
  rw [← hwrap]
  exact unpack_fib rfl (hlen.trans_lt (by decide))

theorem fib_response_exact_sample :
    ∃ response res, Responds ⟨fun _ => 0, ()⟩
        (fib wireFormat ⟨fun _ => 0, ()⟩ (ofList 0 [8, 42]) 2) response ∧
      unpack fibDescriptor response = some (Fib.message ⟨res, []⟩) ∧ res.toInt = fibonacci 42 := by
  obtain ⟨response,res,hresponds,hunpack,-,hiff⟩ := fib_response_exact 42 ⟨fun _ => 0, ()⟩
    (ofList 0 [8, 42]) [8, 42] rfl (slice_ofList 0 [8, 42])
  exact ⟨response,res,hresponds,hunpack,(hiff.mpr (by decide)).1⟩

end WamrTest
