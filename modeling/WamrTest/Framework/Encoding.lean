import Mathlib.Data.List.Basic
import Mathlib.Algebra.Order.Group.Nat

/-!
# Numbers as bytes

Base-128 varints and fixed-width little-endian words. Both are written least significant byte
first; a varint marks with the top bit of a byte that another one follows.
-/

namespace Encoding

/-- The varint of `v`, of at most `limit` bytes. -/
def varint : ℕ → ℕ → List UInt8
  | 0, _ => []
  | limit+1, v =>
    if v < 128 then [UInt8.ofNat v] else UInt8.ofNat (v % 128 + 128) :: varint limit (v / 128)

/-- The value of the varint at the head of the bytes and what follows it; `none` if the bytes
end within it or it is longer than `limit`. -/
def readVarint : ℕ → List UInt8 → Option (ℕ × List UInt8)
  | 0, _ => none
  | _+1, [] => none
  | limit+1, b::bs =>
    if b.toNat < 128 then some (b.toNat, bs)
    else (readVarint limit bs).map fun (v, rest) => (b.toNat % 128 + 128 * v, rest)

theorem readVarint_varint {n : ℕ} : ∀ {v limit limit' : ℕ}, v < 128 ^ (n+1) → n < limit →
    n < limit' → ∀ rest, readVarint limit' (varint limit v ++ rest) = some (v, rest) := by
  induction n with
  | zero =>
    intro v limit limit' hv hl hl' rest
    obtain ⟨l,rfl⟩ := Nat.exists_eq_add_of_lt hl
    obtain ⟨l',rfl⟩ := Nat.exists_eq_add_of_lt hl'
    have hb : (UInt8.ofNat v).toNat = v := by
      rw [UInt8.toNat_ofNat']
      omega
    simp [varint,readVarint,show v < 128 by omega,hb]
  | succ n ih =>
    intro v limit limit' hv hl hl' rest
    obtain ⟨l,rfl⟩ := Nat.exists_eq_add_of_lt (Nat.zero_lt_of_lt hl)
    obtain ⟨l',rfl⟩ := Nat.exists_eq_add_of_lt (Nat.zero_lt_of_lt hl')
    rw [pow_succ] at hv
    by_cases hs : v < 128
    · have hb : (UInt8.ofNat v).toNat = v := by
        rw [UInt8.toNat_ofNat']
        omega
      simp [varint,readVarint,hs,hb]
    · have hb : (UInt8.ofNat (v % 128 + 128)).toNat = v % 128 + 128 := by
        rw [UInt8.toNat_ofNat']
        omega
      have hrest : readVarint (0+l') (varint (0+l) (v / 128) ++ rest) = some (v / 128, rest) :=
        ih (by omega) (by omega) (by omega) rest
      simp only [varint,if_neg hs,List.cons_append,readVarint,hb,hrest,Option.map_some]
      rw [if_neg (by omega)]
      congr 2
      omega

theorem varint_length_le (limit v : ℕ) : (varint limit v).length ≤ limit := by
  induction limit generalizing v with
  | zero => simp [varint]
  | succ limit ih =>
    rw [varint]
    split
    · simp
    · have h := ih (v / 128)
      simp only [List.length_cons]
      omega

theorem varint_length_le_of_lt {n v : ℕ} (h : v < 128 ^ (n+1)) (limit : ℕ) :
    (varint limit v).length ≤ n+1 := by
  induction n generalizing v limit with
  | zero =>
    cases limit with
    | zero => simp [varint]
    | succ limit => simp [varint,show v < 128 by omega]
  | succ n ih =>
    cases limit with
    | zero => simp [varint]
    | succ limit =>
      rw [pow_succ] at h
      have hrest := ih (show v / 128 < 128 ^ (n+1) by omega) limit
      rw [varint]
      split
      · simp
      · simp only [List.length_cons]
        omega

theorem varint_length_mono {v w : ℕ} (h : v ≤ w) (limit : ℕ) :
    (varint limit v).length ≤ (varint limit w).length := by
  induction limit generalizing v w with
  | zero => exact le_rfl
  | succ limit ih =>
    rw [varint,varint]
    by_cases hw : w < 128
    · rw [if_pos hw,if_pos (by omega)]
      exact le_rfl
    · rw [if_neg hw]
      split
      · simp
      · exact Nat.succ_le_succ (ih (Nat.div_le_div_right h))

theorem varint_length_pos {limit : ℕ} (h : 0 < limit) (v : ℕ) : 0 < (varint limit v).length := by
  obtain ⟨l,rfl⟩ := Nat.exists_eq_add_of_lt h
  rw [varint]
  split <;> simp

def word : ℕ → ℕ → List UInt8
  | 0, _ => []
  | n+1, v => UInt8.ofNat v :: word n (v / 256)

def readWord (bytes : List UInt8) : ℕ := bytes.foldr (fun b v => b.toNat + 256 * v) 0

@[simp] theorem word_length (n v : ℕ) : (word n v).length = n := by
  induction n generalizing v with
  | zero => rfl
  | succ n ih => rw [word,List.length_cons,ih]

theorem readWord_word {n v : ℕ} (h : v < 256 ^ n) : readWord (word n v) = v := by
  induction n generalizing v with
  | zero =>
    simp only [pow_zero] at h
    simp [word,readWord]
    omega
  | succ n ih =>
    rw [pow_succ] at h
    have hrest := ih (v := v / 256) (by omega)
    simp only [readWord,word,List.foldr_cons,UInt8.toNat_ofNat'] at hrest ⊢
    rw [hrest]
    omega

end Encoding
