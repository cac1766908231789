import WamrTest.Udf.Kernels

/-!
# Reversing in place

The loop of `_str_reverse` with a log of the indices it reads and writes. It runs over the first
half of `len`, divided towards zero, and never for a negative one.
-/

namespace WamrTest.Kernel

open ByteMemory MachineInt

/-- The body of the loop, `t = str[i]; str[i] = str[j]; str[j] = t`, with the indices of its two
reads and two writes. -/
def swapLogged (s : Mem UInt8 × List ℤ) (i j : ℤ) : Mem UInt8 × List ℤ :=
  (swap s.1 i j, s.2 ++ [i, j, i, j])

def strReverseLogged (str : Mem UInt8) (len : Int32) : Mem UInt8 × List ℤ :=
  (List.range (len / 2).toInt.toNat).foldl
    (fun s (i : ℕ) => swapLogged s i (len - 1 - Int32.ofNat i).toInt) (str, [])

private theorem strReverseLogged_fst (str : Mem UInt8) (len : Int32) :
    (strReverseLogged str len).1 = strReverse str len := by
  unfold strReverseLogged strReverse
  exact (List.foldl_hom Prod.fst fun _ _ => rfl).symm

private theorem half_le (len : Int32) : 2 * ((len / 2).toInt.toNat : ℤ) ≤ max 0 len.toInt := by
  by_cases h : 0 ≤ len.toInt
  · rw [half_toInt h]
    omega
  · have htwo : (2 : Int32).toInt = 2 := by decide
    have hpos : 0 ≤ (-len.toInt).tdiv 2 := Int.tdiv_nonneg (by omega) (by decide)
    rw [Int.neg_tdiv] at hpos
    have hdiv : (len / 2).toInt ≤ 0 := by
      rw [Int32.toInt_div_of_ne_right _ _ (by decide),htwo]
      exact neg_nonneg.mp hpos
    omega

private theorem log_inside (str : Mem UInt8) {len : Int32} {k : ℕ} (hk : 2 * (k : ℤ) ≤ max 0 len.toInt) :
    ∀ a ∈ ((List.range k).foldl
        (fun s (i : ℕ) => swapLogged s i (len - 1 - Int32.ofNat i).toInt) (str, [])).2,
      0 ≤ a ∧ a < max 0 len.toInt := by
  induction k with
  | zero =>
    intro a ha
    exact absurd ha List.not_mem_nil
  | succ k ih =>
    have hmirror : (len - 1 - Int32.ofNat k).toInt = len.toInt - 1 - k := mirror_toInt (by omega)
    have hrest := ih (by omega)
    intro a ha
    rw [List.range_succ,List.foldl_append,List.foldl_cons,List.foldl_nil,hmirror,swapLogged] at ha
    rcases List.mem_append.mp ha with hold | hnew
    · exact hrest a hold
    · simp only [List.mem_cons,List.not_mem_nil,or_false] at hnew
      omega

private theorem strReverse_eq_reversed (str : Mem UInt8) (len : Int32) :
    strReverse str len = reversed str (max 0 len.toInt) := by
  funext a
  by_cases h : 0 ≤ len.toInt
  · rw [strReverse_apply str h,max_eq_right h]
    by_cases ha : 0 ≤ a ∧ a < len.toInt
    · rw [if_pos ha,reversed_inside str ha]
    · rw [if_neg ha,reversed_outside str ha]
  · have hhalf := half_le len
    have hturns : (len / 2).toInt.toNat = 0 := by omega
    rw [strReverse,hturns,reversed_outside _ (by omega)]
    rfl

/-- For every buffer and every length the loop stays inside the range, reverses it and changes no
other byte; a second call restores the buffer. -/
theorem strReverse_in_place (str : Mem UInt8) (len : Int32) :
    (strReverseLogged str len).1 = strReverse str len ∧
      (∀ a ∈ (strReverseLogged str len).2, 0 ≤ a ∧ a < max 0 len.toInt) ∧
      (∀ a, 0 ≤ a ∧ a < max 0 len.toInt → strReverse str len a = str (len.toInt - 1 - a)) ∧
      (∀ a, ¬ (0 ≤ a ∧ a < max 0 len.toInt) → strReverse str len a = str a) ∧
      strReverse (strReverse str len) len = str := by
  refine ⟨strReverseLogged_fst str len,log_inside str (half_le len),?_,?_,?_⟩
  · intro a ha
    have hlen : max 0 len.toInt = len.toInt := by omega
    rw [strReverse_eq_reversed,reversed_inside str ha,hlen]
  · intro a ha
    rw [strReverse_eq_reversed,reversed_outside str ha]
  · rw [strReverse_eq_reversed,strReverse_eq_reversed,reversed_reversed]

end WamrTest.Kernel
