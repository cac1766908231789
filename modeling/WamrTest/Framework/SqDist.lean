import Mathlib.Algebra.BigOperators.Group.List.Lemmas
import Mathlib.Algebra.Order.BigOperators.Group.List
import Mathlib.Algebra.Order.Ring.Unbundled.Basic
import Mathlib.Tactic.Ring

/-!
# Squared distances

The sum of the squared differences of two lists, in a ring and in an ordered ring.
-/

namespace SqDist

section Ring

variable {α : Type*} [CommRing α]

def sqDist (a b : List α) : α := ((a.zip b).map fun p => (p.1 - p.2) ^ 2).sum

@[simp]
theorem sqDist_nil_left (b : List α) : sqDist [] b = 0 := rfl

@[simp]
theorem sqDist_nil_right (a : List α) : sqDist a [] = 0 := by
  rw [sqDist,List.zip_nil_right]
  rfl

@[simp]
theorem sqDist_cons (x y : α) (a b : List α) :
    sqDist (x::a) (y::b) = (x - y) ^ 2 + sqDist a b := by
  rw [sqDist,List.zip_cons_cons,List.map_cons,List.sum_cons]
  rfl

theorem sqDist_comm (a b : List α) : sqDist a b = sqDist b a := by
  induction a generalizing b with
  | nil => simp
  | cons x a ih =>
    cases b with
    | nil => simp
    | cons y b =>
      rw [sqDist_cons,sqDist_cons,ih]
      ring

private theorem sqDist_self (a : List α) : sqDist a a = 0 := by
  induction a with
  | nil => rfl
  | cons x a ih =>
    rw [sqDist_cons,ih]
    ring

theorem sqDist_append {a b : List α} (h : a.length = b.length) (a' b' : List α) :
    sqDist (a ++ a') (b ++ b') = sqDist a b + sqDist a' b' := by
  rw [sqDist,List.zip_append h,List.map_append,List.sum_append]
  rfl

end Ring

section Ordered

variable {α : Type*} [CommRing α] [LinearOrder α] [IsStrictOrderedRing α]

theorem sqDist_nonneg (a b : List α) : 0 ≤ sqDist a b := by
  apply List.sum_nonneg
  intro square hsquare
  obtain ⟨p,-,rfl⟩ := List.mem_map.mp hsquare
  exact sq_nonneg _

theorem sqDist_eq_zero_iff {a b : List α} (h : a.length = b.length) : sqDist a b = 0 ↔ a = b := by
  constructor
  · intro hzero
    induction a generalizing b with
    | nil => exact (List.length_eq_zero_iff.mp h.symm).symm
    | cons x a ih =>
      cases b with
      | nil => exact absurd h (Nat.succ_ne_zero _)
      | cons y b =>
        rw [sqDist_cons] at hzero
        obtain ⟨hhead,htail⟩ :=
          (add_eq_zero_iff_of_nonneg (sq_nonneg (x - y)) (sqDist_nonneg a b)).mp hzero
        have hx : x = y := sub_eq_zero.mp ((pow_eq_zero_iff two_ne_zero).mp hhead)
        rw [hx,ih (Nat.succ_injective h) htail]
  · intro heq
    rw [heq]
    exact sqDist_self b

end Ordered

end SqDist
