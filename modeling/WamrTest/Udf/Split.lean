import WamrTest.Framework.Fields
import WamrTest.Udf.Reference

/-!
# Splitting

`strtok` skips empty fields, so the tokens `_spliter` works on are the words of the string. The
loop that reads them stops at the `NULL` after the last one, which it writes one slot further on;
the loop over `res` stops after `array_len` slots.
-/

namespace WamrTest.Kernel

open Fallible Fields Proto3

section Tokens

variable {s : List UInt8}

theorem strtok_none (h : s.dropWhile (· = sep) = []) : strtok s = none := if_pos h

theorem strtok_some (h : s.dropWhile (· = sep) ≠ []) :
    strtok s = some ((s.dropWhile (· = sep)).takeWhile (· ≠ sep),
      ((s.dropWhile (· = sep)).dropWhile (· ≠ sep)).drop 1) := if_neg h

theorem strtok_length {token rest : List UInt8} (h : strtok s = some (token, rest)) :
    rest.length < s.length := by
  by_cases hs : s.dropWhile (· = sep) = []
  · rw [strtok_none hs] at h
    exact absurd h (by simp)
  · rw [strtok_some hs] at h
    obtain ⟨-,rfl⟩ := Prod.mk.inj (Option.some.inj h)
    obtain ⟨b,bs,hb⟩ := List.exists_cons_of_ne_nil hs
    have hne : b ≠ sep := by
      have hhead := List.head_dropWhile_not (· = sep) hs
      simp only [hb,List.head_cons] at hhead
      simpa using hhead
    have hle := (List.dropWhile_sublist (l := s) (· = sep)).length_le
    have hle' := (List.dropWhile_sublist (l := bs) (· ≠ sep)).length_le
    rw [hb,List.length_cons] at hle
    rw [hb,List.dropWhile_cons_of_pos (by simpa using hne),List.length_drop]
    omega

private theorem tokens_eq_words {fuel : ℕ} (h : s.length ≤ fuel) : tokens fuel s = words sep s := by
  induction fuel generalizing s with
  | zero =>
    rw [List.length_eq_zero_iff.mp (Nat.le_zero.mp h),words_nil]
    rfl
  | succ fuel ih =>
    rw [← words_dropWhile,tokens]
    by_cases hs : s.dropWhile (· = sep) = []
    · rw [strtok_none hs,hs,words_nil]
    · have hhead : (s.dropWhile (· = sep)).head hs ≠ sep := by
        simpa using List.head_dropWhile_not (· = sep) hs
      have hlt := strtok_length (strtok_some hs)
      have hrest := ih (Nat.lt_succ_iff.mp (hlt.trans_le h))
      rw [strtok_some hs,words_eq_cons hs hhead,← hrest]

end Tokens

/-- The `NULL` that ends the first loop comes right after the tokens. -/
theorem filled_eq (data : List UInt8) :
    filled data = (words sep (CString.chars (some data))).map some ++ [none] := by
  rw [filled,tokens_eq_words (List.takeWhile_sublist _).length_le]
  rfl

/-- What the second loop leaves of a token. -/
def keep (token : List UInt8) : CString := if token = exclude then none else some token

private theorem excluded_filled {data : List UInt8} {i : ℕ}
    (h : i < (words sep (CString.chars (some data))).length) :
    excluded (filled data) i = .ok (keep (words sep (CString.chars (some data)))[i]) := by
  rw [filled_eq,excluded,List.getElem?_append_left (by simpa using h),List.getElem?_map,
    List.getElem?_eq_getElem h]
  rfl

private theorem fill_eq {length fuel : ℕ} {res : List CString} {s : List UInt8} (h : s.length ≤ fuel) :
    fill length (fuel+1) res s = if res.length + (tokens fuel s).length < length then
      .ok (res ++ ((tokens fuel s).map some ++ [none])) else .error .outOfBounds := by
  induction fuel generalizing res s with
  | zero =>
    rw [List.length_eq_zero_iff.mp (Nat.le_zero.mp h)]
    rfl
  | succ fuel ih =>
    rw [fill,tokens]
    by_cases hs : s.dropWhile (· = sep) = []
    · rw [strtok_none hs]
      rfl
    · have hlt := strtok_length (strtok_some hs)
      have hrest := @ih (res ++ [some ((s.dropWhile (· = sep)).takeWhile (· ≠ sep))]) _
        (Nat.lt_succ_iff.mp (hlt.trans_le h))
      rw [strtok_some hs]
      simp only [hrest,List.length_append,List.length_cons,List.length_nil,List.map_cons,List.append_assoc,
        List.cons_append,List.nil_append]
      by_cases hroom : res.length < length
      · rw [if_pos hroom]
        exact if_congr (by omega) rfl rfl
      · rw [if_neg hroom,if_neg (by omega)]

/-- The entries of the first `n` slots after both loops. -/
def entries (data : List UInt8) (n : ℕ) : Except Fault (List CString) :=
  (List.range n).mapM (excluded (filled data))

private theorem excluded_turn {data : List UInt8} {n i : ℕ} (hn : n ≤ (words sep (CString.chars (some data))).length)
    (h : i ∈ List.range n) :
    excluded (filled data) i = .ok (keep ((words sep (CString.chars (some data))).getD i [])) := by
  have hlt := (List.mem_range.mp h).trans_le hn
  rw [excluded_filled hlt,List.getD_eq_getElem _ _ hlt]

theorem entries_eq {data : List UInt8} {length : ℕ}
    (h : length ≤ (words sep (CString.chars (some data))).length) :
    entries data length = .ok (((words sep (CString.chars (some data))).take length).map keep) := by
  rw [entries,mapM_ok fun i hi => excluded_turn h hi]
  congr 1
  apply List.ext_getElem
  · simp [h]
  · intro i hi hi'
    have hlt : i < length := by simpa using hi
    simp [List.getElem?_eq_getElem (hlt.trans_le h)]

/-- `_spliter` stops in every case: the `NULL` behind the tokens is written behind an array that has no
slot for it, and compared in one that has. -/
theorem spliter_stops (data : List UInt8) (length : ℕ) : spliter data length =
    .error (if length ≤ (words sep (CString.chars (some data))).length then .outOfBounds else .nullString) := by
  have hprefix : (data.takeWhile (· ≠ 0)).length ≤ data.length := (List.takeWhile_sublist _).length_le
  have htokens : tokens data.length (data.takeWhile (· ≠ 0)) = words sep (CString.chars (some data)) :=
    tokens_eq_words hprefix
  have hfill := @fill_eq length data.length [] _ hprefix
  rw [htokens,List.length_nil,Nat.zero_add,List.nil_append,← filled_eq] at hfill
  rw [spliter,hfill]
  by_cases hlen : length ≤ (words sep (CString.chars (some data))).length
  · rw [if_pos hlen,if_neg (by omega)]
    rfl
  · rw [if_neg hlen,if_pos (by omega)]
    change (List.range length).mapM (excluded (filled data)) = _
    have hslot : excluded (filled data) (words sep (CString.chars (some data))).length = .error .nullString := by
      rw [filled_eq,excluded,List.getElem?_append_right (by simp)]
      simp
    obtain ⟨k,hk⟩ := Nat.exists_eq_add_of_lt (Nat.lt_of_not_le hlen)
    rw [hk,Nat.add_assoc,List.range_add,List.range_succ_eq_map,List.map_cons,Nat.add_zero]
    exact mapM_stop (fun i hi => excluded_turn le_rfl hi) hslot

example : spliter [73, 32, 97, 109, 32, 97, 115, 98] 3 = .error .outOfBounds := by decide

private theorem reference_spliter_eq {segData : List UInt8} {length : ℕ}
    (h : length ≤ (segData.splitOn sep).length) :
    Reference.spliter segData length = ((segData.splitOn sep).take length).map keep := by
  have hkeep : (fun data : CString => if data = some exclude then none else data) ∘ some = keep := by
    funext token
    simp only [Function.comp_apply,keep,Option.some.injEq]
  simp only [Reference.spliter,List.length_map]
  by_cases hlt : length < (segData.splitOn sep).length
  · rw [if_pos hlt,← List.map_take,List.map_map,hkeep]
  · rw [if_neg hlt,if_neg (by omega),List.map_map,hkeep,List.take_of_length_le (by omega)]

/-- The tokens are the fields of the string, and the entries left of them are those of the reference, each
at its place, if and only if the string has no empty field. -/
theorem spliter_keeps_positions (s : List UInt8) (hs : 0 ∉ s) :
    (∀ i (h : i < (s.splitOn sep).length), (tokens s.length s)[i]? = some (s.splitOn sep)[i] ∧
      excluded (filled s) i = .ok (keep (s.splitOn sep)[i]) ∧
      (Reference.spliter s (s.splitOn sep).length)[i]? = some (keep (s.splitOn sep)[i])) ↔
      [] ∉ s.splitOn sep := by
  have hchars := CString.chars_of_not_mem hs
  rw [tokens_eq_words le_rfl]
  constructor
  · intro h
    apply (words_getElem_iff s).mp
    intro i hi
    rw [(h i hi).1,List.getElem?_eq_getElem hi]
  · intro h i hi
    have hwords : words sep s = s.splitOn sep := words_eq_fields h
    have hlt : i < (words sep (CString.chars (some s))).length := by rwa [hchars,hwords]
    rw [excluded_filled hlt,hwords,List.getElem?_eq_getElem hi,reference_spliter_eq le_rfl,List.take_length,
      List.getElem?_map,List.getElem?_eq_getElem hi]
    simp only [hchars,hwords]
    exact ⟨trivial,trivial,rfl⟩

/-- Of the three fields of `"a  b"` the empty one is skipped, and the last one takes its place. -/
theorem spliter_shifts :
    ([97, 32, 32, 98] : List UInt8).splitOn sep = [[97], [], [98]] ∧
      (tokens 4 [97, 32, 32, 98])[1]? = some [98] ∧
      ¬ (tokens 4 [97, 32, 32, 98])[1]? = some [] := by
  exact ⟨by decide,by decide,by decide⟩

theorem spliter_keeps_positions_sample :
    (tokens 8 [73, 32, 97, 109, 32, 97, 115, 98])[1]? = some exclude ∧
      excluded (filled [73, 32, 97, 109, 32, 97, 115, 98]) 1 = .ok none ∧
      (Reference.spliter [73, 32, 97, 109, 32, 97, 115, 98] 3)[1]? = some none :=
  ((spliter_keeps_positions [73, 32, 97, 109, 32, 97, 115, 98] (by decide)).mpr (by decide)) 1 (by decide)

end WamrTest.Kernel
