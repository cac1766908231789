import WamrTest.Framework.Memory
import Mathlib.Tactic.Ring

/-!
# Circular buffers without a count

A ring of `N` cells starts at `head`. A cursor is an address from `head` to `head + N`
inclusive: the two ends are representations of the same cell. `put` and `get` move `n` cells
from a cursor on, byte `j` living in cell `(c + j) mod N`; a transfer that copies in one or in
two pieces computes them. Over them the ring is a window of an unbounded stream.
-/

namespace Circular

open ByteMemory

variable {α : Type}

def put (ring : Mem α) (head : ℤ) (N : ℕ) (c : ℤ) (src : Mem α) (n : ℕ) : Mem α :=
  fun a => if (head ≤ a ∧ a < head + N) ∧ (a - c) % N < n then src ((a - c) % N) else ring a

def get (dst ring : Mem α) (head : ℤ) (N : ℕ) (c : ℤ) (n : ℕ) : Mem α :=
  fun j => if 0 ≤ j ∧ j < n then ring (head + (c - head + j) % N) else dst j

/-- The cursor after a transfer of `n` cells. A cursor may come to rest at the very end. -/
def advance (head : ℤ) (N : ℕ) (c : ℤ) (n : ℕ) : ℤ :=
  if head + N < c + n then c + n - N else c + n

/-- Cursor `c` stands for position `k` of the stream. -/
structure Cursor (head : ℤ) (N : ℕ) (c : ℤ) (k : ℕ) : Prop where
  low : head ≤ c
  high : c ≤ head + N
  position : (c - head) % N = k % N

/-- The ring holds the queue `q`, whose first element is at stream position `r`. -/
def Holds (ring : Mem α) (head : ℤ) (N : ℕ) (r : ℕ) (q : List α) : Prop :=
  ∀ j : ℕ, j < q.length → q[j]? = some (ring (head + ((r : ℤ) + j) % N))

section Transfer

variable {head c a : ℤ} {N n : ℕ}

/-- The index in a transfer from `c` of the byte that lives at address `a`. -/
theorem emod_offset (hlow : head ≤ c) (hhigh : c ≤ head + N) (ha : head ≤ a)
    (ha' : a < head + N) : (a - c) % N = if c ≤ a then a - c else a - c + N := by
  split
  · exact Int.emod_eq_of_lt (by omega) (by omega)
  · rw [← Int.add_emod_right]
    exact Int.emod_eq_of_lt (by omega) (by omega)

theorem put_outside (ring src : Mem α) (h : a < head ∨ head + N ≤ a) :
    put ring head N c src n a = ring a := if_neg (by omega)

theorem put_touched (ring src : Mem α) (ha : head ≤ a) (ha' : a < head + N)
    (h : (a - c) % N < n) : put ring head N c src n a = src ((a - c) % N) :=
  if_pos ⟨⟨ha,ha'⟩,h⟩

theorem put_untouched (ring src : Mem α) (h : (n : ℤ) ≤ (a - c) % N) :
    put ring head N c src n a = ring a := if_neg (by omega)

theorem get_inside (dst ring : Mem α) {j : ℤ} (hj : 0 ≤ j) (hj' : j < n) :
    get dst ring head N c n j = ring (head + (c - head + j) % N) := if_pos ⟨hj,hj'⟩

theorem get_outside (dst ring : Mem α) {j : ℤ} (hj : j < 0 ∨ n ≤ j) :
    get dst ring head N c n j = dst j := if_neg (by omega)

theorem memcpy_eq_put (ring src : Mem α) (hlow : head ≤ c) (hfit : c + n ≤ head + N) :
    memcpy ring c src 0 n = put ring head N c src n := by
  funext a
  by_cases hin : head ≤ a ∧ a < head + N
  · have hoff := emod_offset hlow (by omega) hin.1 hin.2
    unfold memcpy put
    rw [hoff]
    by_cases hca : c ≤ a
    · rw [if_pos hca]
      by_cases hn : a < c + n
      · rw [if_pos ⟨hca,hn⟩,if_pos ⟨hin,by omega⟩]
        ring_nf
      · rw [if_neg (by omega),if_neg (by omega)]
    · rw [if_neg hca,if_neg (by omega),if_neg (by omega)]
  · rw [put_outside ring src (by omega),memcpy_outside ring src _ _ _ _ (by omega)]

/-- A write past the end is a copy up to the end and a copy of the rest at the head. -/
theorem memcpy_memcpy_eq_put (ring src : Mem α) {pre last : ℕ} (hlow : head ≤ c)
    (hhigh : c ≤ head + N) (hn : n ≤ N) (hpre : c + pre = head + N) (hlast : pre + last = n) :
    memcpy (memcpy ring c src 0 pre) head src pre last = put ring head N c src n := by
  funext a
  by_cases hin : head ≤ a ∧ a < head + N
  · have hoff := emod_offset hlow hhigh hin.1 hin.2
    by_cases hca : c ≤ a
    · rw [if_pos hca] at hoff
      rw [memcpy_outside _ src _ _ _ _ (by omega),
        memcpy_inside ring src _ _ _ _ hca (by omega),
        put_touched ring src hin.1 hin.2 (by omega),hoff,zero_add]
    · rw [if_neg hca] at hoff
      by_cases hl : a < head + last
      · rw [memcpy_inside _ src _ _ _ _ hin.1 hl,put_touched ring src hin.1 hin.2 (by omega),hoff]
        congr 1
        omega
      · rw [memcpy_outside _ src _ _ _ _ (by omega),memcpy_outside ring src _ _ _ _ (by omega),
          put_untouched ring src (by omega)]
  · rw [put_outside ring src (by omega),memcpy_outside _ src _ _ _ _ (by omega),
      memcpy_outside ring src _ _ _ _ (by omega)]

theorem memcpy_eq_get (dst ring : Mem α) (hlow : head ≤ c) (hfit : c + n ≤ head + N) :
    memcpy dst 0 ring c n = get dst ring head N c n := by
  funext j
  by_cases hj : 0 ≤ j ∧ j < n
  · rw [memcpy_inside dst ring _ _ _ _ hj.1 (by omega),get_inside dst ring hj.1 hj.2,
      Int.emod_eq_of_lt (by omega) (by omega)]
    congr 1
    omega
  · rw [get_outside dst ring (by omega),memcpy_outside dst ring _ _ _ _ (by omega)]

theorem memcpy_memcpy_eq_get (dst ring : Mem α) {pre last : ℕ} (hlow : head ≤ c)
    (hhigh : c ≤ head + N) (hn : n ≤ N) (hpre : c + pre = head + N) (hlast : pre + last = n) :
    memcpy (memcpy dst 0 ring c pre) pre ring head last = get dst ring head N c n := by
  funext j
  by_cases hj : 0 ≤ j ∧ j < n
  · rw [get_inside dst ring hj.1 hj.2]
    by_cases hp : j < pre
    · rw [memcpy_outside _ ring _ _ _ _ (by omega),
        memcpy_inside dst ring _ _ _ _ hj.1 (by omega),Int.emod_eq_of_lt (by omega) (by omega)]
      congr 1
      omega
    · rw [memcpy_inside _ ring _ _ _ _ (by omega) (by omega),← Int.sub_emod_right,
        Int.emod_eq_of_lt (by omega) (by omega)]
      congr 1
      omega
  · rw [get_outside dst ring (by omega),memcpy_outside _ ring _ _ _ _ (by omega),
      memcpy_outside dst ring _ _ _ _ (by omega)]

theorem advance_bounds (hlow : head ≤ c) (hhigh : c ≤ head + N) (hn : n ≤ N) :
    head ≤ advance head N c n ∧ advance head N c n ≤ head + N := by
  unfold advance
  split <;> omega

end Transfer

section Stream

variable {head c : ℤ} {N n k r : ℕ}

theorem Cursor.start (head : ℤ) (N : ℕ) : Cursor head N head 0 :=
  ⟨le_rfl,by omega,by simp⟩

/-- Byte `j` of a transfer from the cursor of position `k` is stream position `k + j`. -/
theorem Cursor.cell (h : Cursor head N c k) (j : ℤ) :
    (c - head + j) % N = ((k : ℤ) + j) % N := by
  rw [Int.add_emod,h.position,← Int.add_emod]

theorem Cursor.index (h : Cursor head N c k) (p : ℤ) :
    (head + p % N - c) % N = (p - k) % N := by
  rw [show head + p % N - c = p % N - (c - head) by ring,Int.sub_emod,h.position,
    Int.emod_emod_of_dvd p dvd_rfl,← Int.sub_emod]

theorem Cursor.address (h : Cursor head N c k) {a : ℤ} (ha : head ≤ a) (ha' : a < head + N) :
    head + ((k : ℤ) + (a - c) % N) % N = a := by
  rw [← h.cell,Int.add_emod_emod,show c - head + (a - c) = a - head by ring,
    Int.emod_eq_of_lt (by omega) (by omega)]
  ring

theorem Cursor.advance (h : Cursor head N c k) (hn : n ≤ N) :
    Cursor head N (advance head N c n) (k + n) := by
  obtain ⟨hl,hh⟩ := advance_bounds h.low h.high hn
  refine ⟨hl,hh,?_⟩
  have hcell := h.cell n
  push_cast
  rw [← hcell]
  unfold Circular.advance
  split
  · rw [← Int.sub_emod_right (c - head + n)]
    congr 1
    ring
  · congr 1
    ring

theorem cell_mem (head : ℤ) (hN : 0 < N) (p : ℤ) : head ≤ head + p % N ∧ head + p % N < head + N := by
  have h0 := Int.emod_nonneg p (show (N : ℤ) ≠ 0 by omega)
  have h1 := Int.emod_lt_of_pos p (show (0 : ℤ) < N by omega)
  omega

/-- Position `p` lies before the write cursor and less than a revolution behind its end. -/
theorem put_behind (ring src : Mem α) (h : Cursor head N c k) {p : ℤ} (hp : p < k)
    (hN : k + n ≤ p + N) : put ring head N c src n (head + p % N) = ring (head + p % N) := by
  apply put_untouched
  rw [h.index p,← Int.add_emod_right,Int.emod_eq_of_lt (by omega) (by omega)]
  omega

theorem put_ahead (ring src : Mem α) (h : Cursor head N c k) {j : ℕ} (hj : j < n) (hn : n ≤ N) :
    put ring head N c src n (head + ((k : ℤ) + j) % N) = src j := by
  have hj' : (j : ℤ) % N = j := Int.emod_eq_of_lt (by omega) (by omega)
  have hidx := h.index ((k : ℤ) + j)
  rw [show (k : ℤ) + j - k = j by ring,hj'] at hidx
  have hm := cell_mem head (show 0 < N by omega) ((k : ℤ) + j)
  rw [put_touched ring src hm.1 hm.2 (by omega),hidx]

theorem Holds.put {ring src : Mem α} {q : List α} (hq : Holds ring head N r q)
    (h : Cursor head N c (r + q.length)) (hroom : q.length + n ≤ N) :
    Holds (put ring head N c src n) head N r (q ++ slice src 0 n) := by
  intro j hj
  rw [List.length_append,slice_length] at hj
  by_cases hjq : j < q.length
  · rw [List.getElem?_append_left hjq,hq j hjq,
      put_behind ring src h (p := (r : ℤ) + j) (by omega) (by omega)]
  · obtain ⟨i,rfl⟩ : ∃ i, j = q.length + i := ⟨j - q.length,by omega⟩
    have hi : i < n := by omega
    have hput := put_ahead ring src h hi (by omega)
    push_cast at hput ⊢
    rw [List.getElem?_append_right (by omega),slice_getElem? _ _ _ _ (by omega),← add_assoc,hput]
    simp

theorem Holds.get {ring dst : Mem α} {q : List α} (hq : Holds ring head N r q)
    (h : Cursor head N c r) (hn : n ≤ q.length) :
    slice (get dst ring head N c n) 0 n = q.take n := by
  apply List.ext_getElem?
  intro j
  by_cases hj : j < n
  · rw [slice_getElem? _ _ _ _ hj,List.getElem?_take_of_lt hj,hq j (by omega),
      get_inside dst ring (by omega) (by omega),zero_add,h.cell]
  · rw [List.getElem?_eq_none (by simpa using hj),
      List.getElem?_eq_none (by rw [List.length_take]; omega)]

theorem Holds.drop {ring : Mem α} {q : List α} (hq : Holds ring head N r q) (n : ℕ) :
    Holds ring head N (r + n) (q.drop n) := by
  intro j hj
  rw [List.length_drop] at hj
  rw [List.getElem?_drop,hq (n + j) (by omega)]
  push_cast
  rw [add_assoc]

/-- A read of unread cells does not see a write that stays in the free ones. -/
theorem get_put (dst ring src : Mem α) {cr cw : ℤ} {w m : ℕ} (hr : Cursor head N cr r)
    (hw : Cursor head N cw w) (hn : r + n ≤ w) (hroom : w + m ≤ r + N) :
    get dst (put ring head N cw src m) head N cr n = get dst ring head N cr n := by
  funext j
  by_cases hj : 0 ≤ j ∧ j < n
  · rw [get_inside dst _ hj.1 hj.2,get_inside dst _ hj.1 hj.2,hr.cell j,
      put_behind ring src hw (by omega) (by omega)]
  · rw [get_outside dst _ (by omega),get_outside dst _ (by omega)]

end Stream

end Circular
