import WamrTest.Framework.SqDist
import WamrTest.Udf.Reference
import Mathlib.Algebra.Order.Ring.Rat

/-!
# The distance over exact numbers

The kernel and its reference subtract in opposite orders; in a ring both sum the same squares.
-/

namespace WamrTest.Kernel

open Fallible SqDist

section Ring

variable {α : Type} [CommRing α]

private theorem squaredDistance_eq (point1 point2 : List α) :
    squaredDistance point1 point2 = sqDist point1 point2 := by
  rw [squaredDistance,sqDist,List.sum_eq_foldl,List.foldl_map]
  simp only [pow_two]

private theorem squaredDistance_turned (point1 point2 : List α) :
    (point1.zip point2).foldl (fun distance (x, y) => distance + (y - x) ^ 2) 0 =
      sqDist point1 point2 := by
  rw [sqDist,List.sum_eq_foldl,List.foldl_map]
  simp only [sub_sq_comm]

private theorem pointPolygenDistance_sqDist {point1 point2 : List α}
    (h : point1.length = point2.length) :
    pointPolygenDistance point1 point2 point1.length point2.length = .ok (sqDist point1 point2) := by
  rw [pointPolygenDistance_eq,if_pos h,squaredDistance_eq]

private theorem reference_addSquare {point1 point2 : List α} {i : ℕ} (h1 : i < point1.length)
    (h2 : i < point2.length) (distance : α) :
    Reference.addSquare (point1.map some) (point2.map some) distance i =
      some (distance + (point2[i] - point1[i]) ^ 2) := by
  simp only [Reference.addSquare,List.getElem?_map,List.getElem?_eq_getElem h1,
    List.getElem?_eq_getElem h2]
  rfl

omit [CommRing α] in
private theorem any_isNone_map_some (point : List α) : (point.map some).any Option.isNone = false := by
  simp

/-- No list of numbers is refused for a missing number, and the loop ends. -/
theorem reference_pointPolygenDistance_eq (point1 point2 : List α) :
    Reference.pointPolygenDistance (point1.map some) (point2.map some) =
      some (if point1.length = point2.length then sqDist point1 point2 else 0) := by
  unfold Reference.pointPolygenDistance
  rw [any_isNone_map_some,any_isNone_map_some,List.length_map,List.length_map]
  by_cases h : point1.length = point2.length
  · by_cases h1 : point1.length = 0
    · rw [if_pos (.inl h1),if_pos h,List.length_eq_zero_iff.mp h1,sqDist_nil_left]
    · have hzip := length_zip_of_eq h
      have hloop : (List.range (point1.zip point2).length).foldlM
          (Reference.addSquare (point1.map some) (point2.map some)) 0 =
            some ((point1.zip point2).foldl (fun distance (x, y) => distance + (y - x) ^ 2) 0) := by
        apply foldlM_range
        intro i hi distance
        rw [hzip] at hi
        rw [reference_addSquare hi (h ▸ hi),List.getElem_zip]
        rfl
      have hnonempty : ¬ (point1.length = 0 ∨ point2.length = 0 ∨ false = true ∨ false = true) := by
        simp [h1,← h]
      rw [if_neg hnonempty,if_neg (not_not.mpr h),if_pos h,← hzip,hloop,squaredDistance_turned]
  · rw [if_neg h,if_pos (show point1.length ≠ point2.length from h),ite_self]

end Ring

section Ordered

variable {α : Type} [Field α] [LinearOrder α] [IsStrictOrderedRing α]

/-- The kernel and the reference agree on any two lists of numbers; on lists of one length they
compute a squared distance that is additive under concatenation. -/
theorem pointPolygenDistance_squared (point1 point2 : List α) :
    (∃ distance,
      pointPolygenDistance point1 point2 point1.length point2.length = .ok distance ∧
      Reference.pointPolygenDistance (point1.map some) (point2.map some) = some distance ∧
      distance = if point1 = [] ∨ point2 = [] ∨ point1.length ≠ point2.length then 0
        else ((point1.zip point2).map fun p => (p.1 - p.2) ^ 2).sum) ∧
    (point1.length = point2.length → ∃ distance,
      pointPolygenDistance point1 point2 point1.length point2.length = .ok distance ∧
      pointPolygenDistance point2 point1 point2.length point1.length = .ok distance ∧
      0 ≤ distance ∧ (distance = 0 ↔ point1 = point2) ∧
      ∀ point1' point2' : List α, point1'.length = point2'.length → ∃ distance',
        pointPolygenDistance point1' point2' point1'.length point2'.length = .ok distance' ∧
        pointPolygenDistance (point1 ++ point1') (point2 ++ point2') (point1 ++ point1').length
          (point2 ++ point2').length = .ok (distance + distance')) := by
  constructor
  · have hkernel := pointPolygenDistance_eq point1 point2
    rw [squaredDistance_eq] at hkernel
    refine ⟨_,hkernel,reference_pointPolygenDistance_eq point1 point2,?_⟩
    by_cases h : point1.length = point2.length
    · rw [if_pos h]
      split
      · rename_i hempty
        rcases hempty with rfl | rfl | hne
        · exact sqDist_nil_left _
        · exact sqDist_nil_right _
        · exact absurd h hne
      · rfl
    · rw [if_neg h,if_pos (.inr (.inr h))]
  · intro h
    refine ⟨_,pointPolygenDistance_sqDist h,?_,sqDist_nonneg _ _,sqDist_eq_zero_iff h,?_⟩
    · rw [pointPolygenDistance_sqDist h.symm,sqDist_comm]
    · intro point1' point2' h'
      have hlen : (point1 ++ point1').length = (point2 ++ point2').length := by
        rw [List.length_append,List.length_append,h,h']
      exact ⟨_,pointPolygenDistance_sqDist h',
        (pointPolygenDistance_sqDist hlen).trans (congrArg _ (sqDist_append h point1' point2'))⟩

end Ordered

theorem pointPolygenDistance_squared_sample :
    ∃ distance : ℚ, pointPolygenDistance [1, 2] [3, 5] 2 2 = .ok distance ∧ 0 ≤ distance ∧
      ∃ distance', pointPolygenDistance [4] [6] 1 1 = .ok distance' ∧
        pointPolygenDistance [1, 2, 4] [3, 5, 6] 3 3 = .ok (distance + distance') := by
  obtain ⟨distance,hkernel,-,hnonneg,-,happend⟩ :=
    (pointPolygenDistance_squared ([1, 2] : List ℚ) [3, 5]).2 rfl
  exact ⟨distance,hkernel,hnonneg,happend [4] [6] rfl⟩

end WamrTest.Kernel
