import Mathlib.Algebra.GroupWithZero.Nat
import Mathlib.Algebra.Order.BigOperators.Group.List
import Mathlib.Algebra.Order.Group.Nat
import Mathlib.Data.List.TakeWhile

/-!
# Fields and words

A separator ends every field, so that leading, trailing and repeated separators leave empty fields.
The words of a list are its fields that are not empty: what is found by skipping separators and
reading up to the next one.
-/

namespace Fields

variable {α : Type} [DecidableEq α] {a : α}

def words (a : α) (xs : List α) : List (List α) := (xs.splitOn a).filter (· ≠ [])

@[simp] theorem words_nil : words a [] = [] := by simp [words]

@[simp] theorem words_cons_self (xs : List α) : words a (a::xs) = words a xs := by
  have h := List.splitOn_append_cons_self_of_not_mem (a := a) List.not_mem_nil xs
  rw [List.nil_append] at h
  rw [words,h,List.filter_cons_of_neg (by simp)]
  rfl

theorem words_append_cons {word : List α} (h : a ∉ word) (hne : word ≠ []) (xs : List α) :
    words a (word ++ a::xs) = word :: words a xs := by
  rw [words,List.splitOn_append_cons_self_of_not_mem h,List.filter_cons_of_pos (by simpa using hne)]
  rfl

theorem words_of_not_mem {word : List α} (h : a ∉ word) (hne : word ≠ []) : words a word = [word] := by
  rw [words,List.splitOn_eq_singleton h,List.filter_cons_of_pos (by simpa using hne),List.filter_nil]

theorem words_dropWhile (xs : List α) : words a (xs.dropWhile (· = a)) = words a xs := by
  induction xs with
  | nil => rfl
  | cons x xs ih =>
    by_cases hx : x = a
    · subst hx
      rw [List.dropWhile_cons_of_pos (by simp),ih,words_cons_self]
    · rw [List.dropWhile_cons_of_neg (by simpa using hx)]

theorem words_eq_cons {xs : List α} (hne : xs ≠ []) (hhead : xs.head hne ≠ a) :
    words a xs = xs.takeWhile (· ≠ a) :: words a ((xs.dropWhile (· ≠ a)).drop 1) := by
  have hword : a ∉ xs.takeWhile (· ≠ a) := by
    intro h
    simpa using List.mem_takeWhile_imp h
  have hword_ne : xs.takeWhile (· ≠ a) ≠ [] := by
    obtain ⟨x,xs,rfl⟩ := List.exists_cons_of_ne_nil hne
    rw [List.takeWhile_cons_of_pos (by simpa using hhead)]
    exact List.cons_ne_nil _ _
  have hsplit := List.takeWhile_append_dropWhile (p := (· ≠ a)) (l := xs)
  rcases hrest : xs.dropWhile (· ≠ a) with _ | ⟨b,rest⟩
  · rw [hrest,List.append_nil] at hsplit
    rw [List.drop_nil,words_nil,← words_of_not_mem hword hword_ne,hsplit]
  · have hb : b = a := by
      have hne_rest : xs.dropWhile (· ≠ a) ≠ [] := by
        rw [hrest]
        exact List.cons_ne_nil _ _
      have hneg := List.head_dropWhile_not (· ≠ a) hne_rest
      simp only [hrest,List.head_cons] at hneg
      simpa using hneg
    subst hb
    rw [hrest] at hsplit
    rw [List.drop_one,List.tail_cons,← words_append_cons hword hword_ne rest,hsplit]

theorem words_eq_fields {xs : List α} (h : [] ∉ xs.splitOn a) : words a xs = xs.splitOn a := by
  rw [words,List.filter_eq_self]
  intro field hfield
  simp only [ne_eq,decide_not,Bool.not_eq_eq_eq_not,Bool.not_true,decide_eq_false_iff_not]
  intro hnil
  exact h (hnil ▸ hfield)

/-- Every separator ends a field, and one more field ends with the list. -/
theorem fields_length (xs : List α) :
    ((xs.splitOn a).map List.length).sum + (xs.splitOn a).length = xs.length + 1 := by
  induction xs with
  | nil => rfl
  | cons x xs ih =>
    rw [List.splitOn_cons_eq_if_modifyHead,List.length_cons]
    split
    · rw [List.map_cons,List.sum_cons,List.length_nil,List.length_cons]
      omega
    · obtain ⟨field,fields,hfields⟩ := List.exists_cons_of_ne_nil (List.splitOn_ne_nil a xs)
      rw [hfields] at ih ⊢
      simp only [List.modifyHead_cons,List.map_cons,List.sum_cons,List.length_cons] at ih ⊢
      omega

theorem words_sum_le (xs : List α) : ((words a xs).map List.length).sum ≤ xs.length := by
  have hfields := fields_length (a := a) xs
  have hne := List.length_pos_iff.mpr (List.splitOn_ne_nil a xs)
  have hsub : ((words a xs).map List.length).sum ≤ ((xs.splitOn a).map List.length).sum :=
    (List.filter_sublist.map List.length).sum_le_sum (fun _ _ => Nat.zero_le _)
  omega

theorem ne_nil_of_mem_words {xs word : List α} (h : word ∈ words a xs) : word ≠ [] := by
  simpa using (List.mem_filter.mp h).2

private theorem sublist_of_mem_fields {xs field : List α} (h : field ∈ xs.splitOn a) : field.Sublist xs := by
  induction xs generalizing field with
  | nil => simpa using h
  | cons x xs ih =>
    rw [List.splitOn_cons_eq_if_modifyHead] at h
    split at h
    · rcases List.mem_cons.mp h with rfl | h
      · exact List.nil_sublist _
      · exact (ih h).cons x
    · obtain ⟨first,fields,hfields⟩ := List.exists_cons_of_ne_nil (List.splitOn_ne_nil a xs)
      rw [hfields] at h ih
      rw [List.modifyHead_cons] at h
      rcases List.mem_cons.mp h with rfl | h
      · exact (ih List.mem_cons_self).cons_cons x
      · exact (ih (List.mem_cons_of_mem first h)).cons x

theorem sublist_of_mem_words {xs word : List α} (h : word ∈ words a xs) : word.Sublist xs :=
  sublist_of_mem_fields (List.mem_filter.mp h).1

/-- The words are the fields, position by position, when there is no empty field to skip. -/
theorem words_getElem_iff (xs : List α) :
    (∀ i, i < (xs.splitOn a).length → (words a xs)[i]? = (xs.splitOn a)[i]?) ↔ [] ∉ xs.splitOn a := by
  constructor
  · intro h
    have hlen : (xs.splitOn a).length ≤ (words a xs).length := by
      by_contra hlt
      have hlast := h (words a xs).length (by omega)
      rw [List.getElem?_eq_none le_rfl,List.getElem?_eq_getElem (by omega)] at hlast
      exact absurd hlast (by simp)
    have hall := List.length_filter_eq_length_iff.mp (le_antisymm (List.length_filter_le _ _) hlen)
    intro hmem
    simpa using hall [] hmem
  · intro h i _
    rw [words_eq_fields h]

end Fields
