import WamrTest.Udf.Split

/-!
# The result array of `_spliter`

The first loop of `_spliter` fills `res` until `strtok` returns `NULL` and stores that too; the
second one compares `array_len` slots with the exclusion word. The array has `array_len` slots.
-/

namespace WamrTest.Kernel

open Fields Proto3

/-- An access of `res`, or a `strcmp` with a slot of it. A slot nobody wrote is `none`. -/
inductive ResAccess
  | write (i : ℕ) (s : CString)
  | read (i : ℕ)
  | strcmp (s : Option CString)
deriving DecidableEq

/-- The first loop from the call of `strtok` for `res[i]` on: the slot is written, then tested. -/
def fillLoop : ℕ → ℕ → List UInt8 → List ResAccess
  | 0, _, _ => []
  | fuel+1, i, s =>
    match strtok s with
    | none => [.write i none, .read i]
    | some (token, rest) => .write i (some token) :: .read i :: fillLoop fuel (i+1) rest

/-- A turn of the second loop; the `printf` reads the slot again. -/
def scanTurn (res : List CString) (i : ℕ) : List ResAccess :=
  [.read i, .strcmp res[i]?] ++ (if res[i]? = some (some exclude) then [.write i none] else []) ++
    [.read i]

def spliterAccesses (data : List UInt8) (length : ℕ) : List ResAccess :=
  fillLoop (data.length + 1) 0 (data.takeWhile (· ≠ 0)) ++
    (List.range length).flatMap (scanTurn (filled data))

def ResAccess.Inside (length : ℕ) : ResAccess → Prop
  | .write i _ | .read i => i < length
  | .strcmp s => s ≠ some none

/-- Every access is to one of the slots, every slot is written before it is read, and no string
that is compared is `NULL`. -/
structure StaysInside (length : ℕ) (accesses : List ResAccess) : Prop where
  inside : ∀ a ∈ accesses, a.Inside length
  written : ∀ pre i post, accesses = pre ++ .read i :: post → ∃ s, .write i s ∈ pre

def fillTurn (slot : CString × ℕ) : List ResAccess := [.write slot.2 slot.1, .read slot.2]

/-- The first loop stores the tokens and the `NULL`, whatever the length of the array. -/
theorem fillLoop_eq {fuel i : ℕ} {s : List UInt8} (h : s.length ≤ fuel) :
    fillLoop (fuel+1) i s =
      (((tokens fuel s).map some ++ [none]).zipIdx i).flatMap fillTurn := by
  induction fuel generalizing i s with
  | zero =>
    rw [List.length_eq_zero_iff.mp (Nat.le_zero.mp h)]
    rfl
  | succ fuel ih =>
    rw [fillLoop,tokens]
    by_cases hs : s.dropWhile (· = sep) = []
    · rw [strtok_none hs]
      rfl
    · have hlt := strtok_length (strtok_some hs)
      have hrest := ih (i := i + 1) (Nat.lt_succ_iff.mp (hlt.trans_le h))
      rw [strtok_some hs]
      simp only [hrest,List.map_cons,List.cons_append,List.zipIdx_cons,List.flatMap_cons]
      rfl

private theorem fillLoop_filled (data : List UInt8) :
    fillLoop (data.length + 1) 0 (data.takeWhile (· ≠ 0)) =
      (filled data).zipIdx.flatMap fillTurn :=
  fillLoop_eq (List.takeWhile_sublist _).length_le

private theorem write_mem {data : List UInt8} {i : ℕ} (length : ℕ)
    (h : i ≤ (words sep (CString.chars (some data))).length) :
    ∃ s, .write i s ∈ spliterAccesses data length := by
  have hlt : i < (filled data).length := by
    rw [filled_eq]
    simp
    omega
  refine ⟨(filled data)[i],List.mem_append_left _ ?_⟩
  rw [fillLoop_filled,List.mem_flatMap]
  refine ⟨((filled data)[i],i),?_,List.mem_cons_self⟩
  exact List.mk_mem_zipIdx_iff_getElem?.mpr (List.getElem?_eq_getElem hlt)

private theorem strcmp_null_mem {data : List UInt8} {length : ℕ}
    (h : (words sep (CString.chars (some data))).length < length) :
    .strcmp (some none) ∈ spliterAccesses data length := by
  apply List.mem_append_right
  rw [List.mem_flatMap]
  refine ⟨_,List.mem_range.mpr h,?_⟩
  have hslot : (filled data)[(words sep (CString.chars (some data))).length]? = some none := by
    rw [filled_eq,List.getElem?_append_right (by simp)]
    simp
  rw [scanTurn,hslot]
  simp

/-- The array is one slot too short as soon as its slots do not outnumber the tokens, and when they
do the second loop compares the `NULL`: no string and no length is safe. -/
theorem spliter_never_stays (data : List UInt8) (length : ℕ) :
    ¬ StaysInside length (spliterAccesses data length) ∧
      (length ≤ (words sep (CString.chars (some data))).length →
        ∃ s, .write length s ∈ spliterAccesses data length) ∧
      ((words sep (CString.chars (some data))).length < length →
        .strcmp (some none) ∈ spliterAccesses data length) := by
  refine ⟨?_,write_mem length,strcmp_null_mem⟩
  intro h
  rcases Nat.lt_or_ge (words sep (CString.chars (some data))).length length with hlt | hge
  · exact h.inside _ (strcmp_null_mem hlt) rfl
  · obtain ⟨s,hs⟩ := write_mem length hge
    exact lt_irrefl length (h.inside _ hs)

/-- The driver's three words: an array of three slots gets a `NULL` in its fourth, and with four
slots that `NULL` is compared with the exclusion word. -/
theorem spliter_leaves_array :
    ¬ StaysInside 3 (spliterAccesses [73, 32, 97, 109, 32, 97, 115, 98] 3) ∧
      ¬ StaysInside 4 (spliterAccesses [73, 32, 97, 109, 32, 97, 115, 98] 4) := by
  constructor
  · intro h
    exact absurd (h.inside (.write 3 none) (by decide)) (lt_irrefl 3)
  · intro h
    exact h.inside (.strcmp (some none)) (by decide) rfl

end WamrTest.Kernel
