import Mathlib.Data.Int.ModEq
import Mathlib.Data.List.GetD

/-!
# Address-indexed memory

A memory maps integer addresses to cells. `memcpy`, `memset` and `store` update a range of
addresses and leave the others alone; `slice` reads a range back as a list. The cell type is
arbitrary, and source and destination of a copy are separate objects.
-/

namespace ByteMemory

abbrev Mem (α : Type) := ℤ → α

variable {α : Type}

def memcpy (dst : Mem α) (d : ℤ) (src : Mem α) (s : ℤ) (n : ℕ) : Mem α :=
  fun a => if d ≤ a ∧ a < d + n then src (s + (a - d)) else dst a

def memset (dst : Mem α) (d : ℤ) (value : α) (n : ℕ) : Mem α :=
  fun a => if d ≤ a ∧ a < d + n then value else dst a

def slice (m : Mem α) (a : ℤ) (n : ℕ) : List α := (List.range n).map fun i : ℕ => m (a + i)

/-- A memory whose cells from address 0 on are the list, followed by `pad`. -/
def ofList (pad : α) (l : List α) : Mem α := fun a => if a < 0 then pad else l.getD a.toNat pad

def store (m : Mem α) (l : List α) : Mem α :=
  fun a => if 0 ≤ a then l.getD a.toNat (m a) else m a

theorem memcpy_inside (dst src : Mem α) (d s a : ℤ) (n : ℕ) (h : d ≤ a) (h' : a < d + n) :
    memcpy dst d src s n a = src (s + (a - d)) := if_pos ⟨h, h'⟩

theorem memcpy_outside (dst src : Mem α) (d s a : ℤ) (n : ℕ) (h : a < d ∨ d + n ≤ a) :
    memcpy dst d src s n a = dst a := if_neg (by omega)

@[simp] theorem memcpy_zero (dst src : Mem α) (d s : ℤ) : memcpy dst d src s 0 = dst := by
  funext a
  exact memcpy_outside dst src d s a 0 (by omega)

@[simp] theorem slice_length (m : Mem α) (a : ℤ) (n : ℕ) : (slice m a n).length = n := by
  simp [slice]

theorem slice_getElem? (m : Mem α) (a : ℤ) (n i : ℕ) (h : i < n) :
    (slice m a n)[i]? = some (m (a + i)) := by
  simp [slice, h]

theorem slice_eq_of_getElem? (m : Mem α) (a : ℤ) (l : List α)
    (h : ∀ i : ℕ, i < l.length → l[i]? = some (m (a + i))) : slice m a l.length = l := by
  apply List.ext_getElem?
  intro i
  by_cases hi : i < l.length
  · rw [slice_getElem? m a l.length i hi, h i hi]
  · rw [List.getElem?_eq_none (by simpa using hi), List.getElem?_eq_none (by omega)]

theorem slice_store_take (m : Mem α) (l : List α) {n : ℕ} (h : n ≤ l.length) :
    slice (store m l) 0 n = l.take n := by
  have hlen : (l.take n).length = n := by simp [h]
  have hslice : slice (store m l) 0 (l.take n).length = l.take n := by
    apply slice_eq_of_getElem?
    intro i hi
    rw [hlen] at hi
    have hil : i < l.length := by omega
    simp [store, hi, hil]
  rwa [hlen] at hslice

theorem slice_store (m : Mem α) (l : List α) : slice (store m l) 0 l.length = l := by
  rw [slice_store_take m l le_rfl, List.take_length]

theorem slice_ofList (pad : α) (l : List α) : slice (ofList pad l) 0 l.length = l := by
  apply slice_eq_of_getElem?
  intro i hi
  simp [ofList, hi]

/-- Exchanges the first address of `[0, n)` with the last one, the second with the last but one. -/
def mirror (n a : ℤ) : ℤ := if 0 ≤ a ∧ a < n then n - 1 - a else a

theorem mirror_involutive (n : ℤ) : Function.Involutive (mirror n) := by
  intro a
  unfold mirror
  split <;> omega

/-- The memory with the cells of `[0, n)` in reverse order. -/
def reversed (m : Mem α) (n : ℤ) : Mem α := fun a => m (mirror n a)

theorem reversed_inside (m : Mem α) {n a : ℤ} (h : 0 ≤ a ∧ a < n) :
    reversed m n a = m (n - 1 - a) := by
  rw [reversed,mirror,if_pos h]

theorem reversed_outside (m : Mem α) {n a : ℤ} (h : ¬ (0 ≤ a ∧ a < n)) : reversed m n a = m a := by
  rw [reversed,mirror,if_neg h]

theorem reversed_reversed (m : Mem α) (n : ℤ) : reversed (reversed m n) n = m := by
  funext a
  rw [reversed,reversed,mirror_involutive n a]

end ByteMemory
