import WamrTest.Framework.Fallible
import WamrTest.Framework.MachineInt
import WamrTest.Framework.Memory
import WamrTest.Udf.Messages

/-!
# The kernels

`_str_reverse`, `_fib`, `hash`, `_build_user_id`, `_spliter` and `_point_polygen_distance` of
`wasm-app/testapp.c`. Strings are the bytes stored before the terminator.
-/

namespace WamrTest.Kernel

open ByteMemory Fallible MachineInt Proto3

/-- The body of the loop: `t = str[i]; str[i] = str[j]; str[j] = t`. -/
def swap (str : Mem UInt8) (i j : ℤ) : Mem UInt8 :=
  let t := str i
  let str := Function.update str i (str j)
  Function.update str j t

def strReverse (str : Mem UInt8) (len : Int32) : Mem UInt8 :=
  (List.range (len / 2).toInt.toNat).foldl
    (fun str (i : ℕ) => swap str i (len - 1 - Int32.ofNat i).toInt) str

def fib (n : Int32) : Int32 := if n ≤ 1 then n else fib (n - 1) + fib (n - 2)
termination_by n.toInt.toNat
decreasing_by
  all_goals
    have hn : (1 : Int32).toInt < n.toInt := Int32.lt_iff_toInt_lt.mp (Int32.not_le.mp ‹¬ n ≤ 1›)
    have hone : (1 : Int32).toInt = 1 := by decide
    have htwo : (2 : Int32).toInt = 2 := by decide
    rw [toInt_sub_of_le (by omega) (by omega)]
    omega

def hash (str : List UInt8) : UInt32 :=
  (str.takeWhile (· ≠ 0)).foldl (fun h p => 31 * h + p.toUInt32) 0

/-- The digits `"%u"` prints. -/
def decimal (n : UInt32) : List UInt8 := (Nat.toDigits 10 n.toNat).map fun c => UInt8.ofNat c.toNat

/-- `sprintf(dst, "%u", n)`; the storage of a string ends with its terminator. -/
def sprintf (dst : CString) (n : UInt32) : Except Fault CString :=
  match dst with
  | none => .error .nullString
  | some s =>
    if s.length < (decimal n).length then .error .overflow
    else .ok (some (decimal n ++ 0 :: s.drop ((decimal n).length + 1)))

/-- `_build_user_id`. Both tests compare pointers: the address of a literal `""` is never that
of an `imei_id`. -/
def buildUserId (userId imeiId : CString) : Except Fault CString :=
  match userId with
  | some s => .ok (some s)
  | none =>
    match imeiId with
    | some imei => sprintf none (hash imei)
    | none => .ok (some [48])

/-- `sep` and `exclude` of `_spliter`: `" "` and `"am"`. -/
def sep : UInt8 := 32

def exclude : List UInt8 := [97, 109]

/-- One call of `strtok`: the next token and what is left after its separator. -/
def strtok (s : List UInt8) : Option (List UInt8 × List UInt8) :=
  let s := s.dropWhile (· = sep)
  if s = [] then none else some (s.takeWhile (· ≠ sep), (s.dropWhile (· ≠ sep)).drop 1)

/-- The tokens of the calls up to the one that returns `NULL`. -/
def tokens : ℕ → List UInt8 → List (List UInt8)
  | 0, _ => []
  | fuel+1, s =>
    match strtok s with
    | none => []
    | some (token, rest) => token :: tokens fuel rest

/-- The first loop: each answer of `strtok` up to the `NULL` goes to the slot behind those of `res`. -/
def fill (length : ℕ) : ℕ → List CString → List UInt8 → Except Fault (List CString)
  | 0, res, _ => .ok res
  | fuel+1, res, s =>
    if res.length < length then
      match strtok s with
      | none => .ok (res ++ [none])
      | some (token, rest) => fill length fuel (res ++ [some token]) rest
    else .error .outOfBounds

/-- What the first loop writes to `res[0]`, `res[1]` and so on if `res` has the slots for it. -/
def filled (data : List UInt8) : List CString :=
  (tokens data.length (data.takeWhile (· ≠ 0))).map some ++ [none]

/-- The second loop at `res[i]`. -/
def excluded (res : List CString) (i : ℕ) : Except Fault CString :=
  match res[i]? with
  | none => .error .uninitialized
  | some none => .error .nullString
  | some (some s) => .ok (if s = exclude then none else some s)

/-- `_spliter`: the slots of `res` after both loops. -/
def spliter (data : List UInt8) (length : ℕ) : Except Fault (List CString) := do
  let res ← fill length (data.length + 1) [] (data.takeWhile (· ≠ 0))
  (List.range length).mapM (excluded res)

def element {α : Type} (point : List α) (i : ℕ) : Except Fault α :=
  match point[i]? with
  | none => .error .nullArray
  | some x => .ok x

section Distance

variable {α : Type} [Zero α] [Add α] [Sub α] [Mul α]

def addSquare (point1 point2 : List α) (distance : α) (i : ℕ) : Except Fault α := do
  let x ← element point1 i
  let y ← element point2 i
  return distance + (x - y) * (x - y)

def pointPolygenDistance (point1 point2 : List α) (size1 size2 : ℕ) : Except Fault α :=
  if size1 = 0 ∨ size2 = 0 ∨ size1 ≠ size2 then .ok 0
  else (List.range size1).foldlM (addSquare point1 point2) 0

def squaredDistance (point1 point2 : List α) : α :=
  (point1.zip point2).foldl (fun distance (x, y) => distance + (x - y) * (x - y)) 0

omit [Zero α] in
private theorem addSquare_of_lt {point1 point2 : List α} {i : ℕ} (h1 : i < point1.length)
    (h2 : i < point2.length) (distance : α) :
    addSquare point1 point2 distance i =
      .ok (distance + (point1[i] - point2[i]) * (point1[i] - point2[i])) := by
  simp only [addSquare,element,List.getElem?_eq_getElem h1,List.getElem?_eq_getElem h2]
  rfl

omit [Zero α] [Add α] [Sub α] [Mul α] in
theorem length_zip_of_eq {point1 point2 : List α} (h : point1.length = point2.length) :
    (point1.zip point2).length = point1.length := by
  rw [List.length_zip,← h,min_self]

theorem pointPolygenDistance_eq (point1 point2 : List α) :
    pointPolygenDistance point1 point2 point1.length point2.length =
      .ok (if point1.length = point2.length then squaredDistance point1 point2 else 0) := by
  unfold pointPolygenDistance
  by_cases h : point1.length = point2.length
  · by_cases h1 : point1.length = 0
    · rw [if_pos (.inl h1),if_pos h,squaredDistance,List.length_eq_zero_iff.mp h1]
      rfl
    · have hzip := length_zip_of_eq h
      rw [if_neg (by omega),if_pos h,← hzip]
      apply foldlM_range
      intro i hi distance
      rw [hzip] at hi
      rw [addSquare_of_lt hi (h ▸ hi),List.getElem_zip]
      rfl
  · rw [if_pos (.inr (.inr h)),if_neg h]

end Distance

private theorem swap_apply (str : Mem UInt8) (i j a : ℤ) :
    swap str i j a = if a = i then str j else if a = j then str i else str a := by
  by_cases hj : a = j
  · subst hj
    by_cases hi : a = i
    · simp [swap,hi]
    · simp [swap,hi]
  · by_cases hi : a = i
    · subst hi
      simp [swap,hj]
    · simp [swap,hi,hj]

theorem half_toInt {len : Int32} (h : 0 ≤ len.toInt) : (len / 2).toInt = len.toInt / 2 := by
  have hlt := len.toInt_lt
  have htwo : (2 : Int32).toInt = 2 := by decide
  rw [Int32.toInt_div_of_ne_right _ _ (by decide),htwo]
  exact Int.tdiv_eq_ediv_of_nonneg h

theorem mirror_toInt {len : Int32} {i : ℕ} (h : (i : ℤ) < len.toInt) :
    (len - 1 - Int32.ofNat i).toInt = len.toInt - 1 - i := by
  have hlt := len.toInt_lt
  have hone : (1 : Int32).toInt = 1 := by decide
  have hi : (Int32.ofNat i).toInt = i := toInt_ofNat_of_lt (by omega)
  have hpred : (len - 1).toInt = len.toInt - 1 := by
    rw [toInt_sub_of_le (by omega) (by omega),hone]
  rw [toInt_sub_of_le (by omega) (by omega),hpred,hi]

/-- After `k` turns the outer `k` bytes on both sides are exchanged and the rest is untouched. -/
theorem strReverse_loop (str : Mem UInt8) {len : Int32} {k : ℕ} (hk : 2 * (k : ℤ) ≤ len.toInt) (a : ℤ) :
    (List.range k).foldl (fun str (i : ℕ) => swap str i (len - 1 - Int32.ofNat i).toInt) str a =
      if (0 ≤ a ∧ a < k) ∨ (len.toInt - k ≤ a ∧ a < len.toInt) then str (len.toInt - 1 - a)
      else str a := by
  induction k generalizing a with
  | zero =>
    simp only [List.range_zero,List.foldl_nil]
    rw [if_neg (by omega)]
  | succ k ih =>
    have hmirror : (len - 1 - Int32.ofNat k).toInt = len.toInt - 1 - k := mirror_toInt (by omega)
    rw [List.range_succ,List.foldl_append,List.foldl_cons,List.foldl_nil,hmirror,swap_apply,
      ih (by omega),ih (by omega),ih (by omega)]
    by_cases hi : a = k
    · subst hi
      rw [if_pos rfl,if_neg (by omega),if_pos (by omega)]
    · by_cases hj : a = len.toInt - 1 - k
      · subst hj
        rw [if_neg hi,if_pos rfl,if_neg (by omega),if_pos (by omega)]
        congr 1
        omega
      · rw [if_neg hi,if_neg hj]
        exact if_congr (by omega) rfl rfl

theorem strReverse_apply (str : Mem UInt8) {len : Int32} (h : 0 ≤ len.toInt) (a : ℤ) :
    strReverse str len a =
      if 0 ≤ a ∧ a < len.toInt then str (len.toInt - 1 - a) else str a := by
  have hhalf := half_toInt h
  have hloop := strReverse_loop str (by omega : 2 * ((len / 2).toInt.toNat : ℤ) ≤ len.toInt) a
  rw [strReverse,hloop]
  by_cases ha : 0 ≤ a ∧ a < len.toInt
  · rw [if_pos ha]
    by_cases hmid : len.toInt - 1 - a = a
    · -- the middle of an odd length is its own mirror image
      rw [hmid,ite_self]
    · rw [if_pos (by omega)]
  · rw [if_neg ha,if_neg (by omega)]

theorem slice_strReverse {s : List UInt8} {n : ℕ} (hn : n ≤ s.length) (hlt : n < 2 ^ 31) :
    slice (strReverse (ofList 0 s) (Int32.ofNat n)) 0 s.length = (s.take n).reverse ++ s.drop n := by
  have hlen : (Int32.ofNat n).toInt = n := toInt_ofNat_of_lt hlt
  have htotal : ((s.take n).reverse ++ s.drop n).length = s.length := by simp; omega
  rw [← htotal]
  apply slice_eq_of_getElem?
  intro i hi
  rw [htotal] at hi
  rw [strReverse_apply _ (by omega),hlen]
  by_cases hin : i < n
  · have hrev : i < (s.take n).reverse.length := by simp; omega
    rw [if_pos (by omega),List.getElem?_append_left hrev,List.getElem?_reverse (by simpa using hrev),
      List.length_take,Nat.min_eq_left hn,List.getElem?_take_of_lt (by omega)]
    simp only [ofList]
    rw [if_neg (by omega),show ((n : ℤ) - 1 - (0 + i)).toNat = n - 1 - i by omega,
      List.getD_eq_getElem _ _ (by omega),List.getElem?_eq_getElem (by omega)]
  · have hrev : (s.take n).reverse.length ≤ i := by simp; omega
    rw [if_neg (by omega),List.getElem?_append_right hrev,List.getElem?_drop,List.length_reverse,
      List.length_take,Nat.min_eq_left hn,Nat.add_sub_cancel' (by omega)]
    simp [ofList,hi]

end WamrTest.Kernel
