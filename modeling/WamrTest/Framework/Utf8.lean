import Mathlib.Data.List.Induction
import Mathlib.Order.Basic

/-!
# UTF-8

The encoding of a list of characters. The bytes of a character outside ASCII all have their top bit
set, and only its first one is at least 192, so that no character starts where another one ends and
a reversed encoding is an encoding only if there is nothing but ASCII in it.
-/

namespace Utf8

def encode (cs : List Char) : List UInt8 := cs.flatMap String.utf8EncodeChar

def IsAscii (c : Char) : Prop := c.toNat < 128

instance (c : Char) : Decidable (IsAscii c) := inferInstanceAs (Decidable (c.toNat < 128))

@[simp] theorem encode_nil : encode [] = [] := rfl

@[simp] theorem encode_cons (c : Char) (cs : List Char) :
    encode (c::cs) = String.utf8EncodeChar c ++ encode cs := List.flatMap_cons

theorem encode_append (cs cs' : List Char) : encode (cs ++ cs') = encode cs ++ encode cs' :=
  List.flatMap_append

private theorem encodeChar_ascii {c : Char} (h : IsAscii c) :
    String.utf8EncodeChar c = [UInt8.ofNat c.toNat] := if_pos (Nat.lt_succ_iff.mp h)

private theorem encodeChar_wide {c : Char} (h : ¬ IsAscii c) :
    ∃ lead middle last, String.utf8EncodeChar c = lead :: (middle ++ [last]) ∧ 192 ≤ lead.toNat ∧
      (∀ b ∈ middle, 128 ≤ b.toNat) ∧ 128 ≤ last.toNat ∧ last.toNat < 192 := by
  have hbyte (n : ℕ) : (UInt8.ofNat n).toNat = n % 256 := UInt8.toNat_ofNat'
  have hv : ¬ c.val.toNat ≤ 0x7f := fun hle => h (Nat.lt_succ_iff.mpr hle)
  rw [String.utf8EncodeChar,if_neg hv]
  split_ifs
  · refine ⟨_,[],_,rfl,?_,by simp,?_,?_⟩ <;> rw [hbyte] <;> omega
  · refine ⟨_,[_],_,rfl,?_,?_,?_,?_⟩
    · rw [hbyte]
      omega
    · intro b hb
      rw [List.mem_singleton.mp hb,hbyte]
      omega
    · rw [hbyte]
      omega
    · rw [hbyte]
      omega
  · refine ⟨_,[_,_],_,rfl,?_,?_,?_,?_⟩
    · rw [hbyte]
      omega
    · intro b hb
      rcases List.mem_cons.mp hb with rfl | hb
      · rw [hbyte]
        omega
      · rw [List.mem_singleton.mp hb,hbyte]
        omega
    · rw [hbyte]
      omega
    · rw [hbyte]
      omega

theorem head_encode {cs : List Char} {b : UInt8} {rest : List UInt8} (h : encode cs = b::rest) :
    b.toNat < 128 ∨ 192 ≤ b.toNat := by
  cases cs with
  | nil => exact absurd h (by simp)
  | cons c cs =>
    by_cases hc : IsAscii c
    · rw [encode_cons,encodeChar_ascii hc] at h
      obtain ⟨rfl,-⟩ := List.cons.inj h
      have hlt : c.toNat < 128 := hc
      rw [UInt8.toNat_ofNat']
      omega
    · obtain ⟨lead,middle,last,henc,hlead,-⟩ := encodeChar_wide hc
      rw [encode_cons,henc] at h
      obtain ⟨rfl,-⟩ := List.cons.inj h
      exact .inr hlead

theorem encode_eq_cons {cs : List Char} {c : Char} {rest : List UInt8} (hc : IsAscii c)
    (h : encode cs = UInt8.ofNat c.toNat :: rest) : ∃ cs', cs = c::cs' ∧ encode cs' = rest := by
  have hlt : c.toNat < 128 := hc
  cases cs with
  | nil => exact absurd h (by simp)
  | cons c' cs' =>
    by_cases hc' : IsAscii c'
    · have hlt' : c'.toNat < 128 := hc'
      rw [encode_cons,encodeChar_ascii hc'] at h
      obtain ⟨hhead,hrest⟩ := List.cons.inj h
      have hnat := congrArg UInt8.toNat hhead
      rw [UInt8.toNat_ofNat',UInt8.toNat_ofNat'] at hnat
      have heq : c' = c := Char.toNat_inj.mp (by omega)
      exact ⟨cs',by rw [heq],hrest⟩
    · obtain ⟨lead,middle,last,henc,hlead,-⟩ := encodeChar_wide hc'
      rw [encode_cons,henc] at h
      obtain ⟨rfl,-⟩ := List.cons.inj h
      rw [UInt8.toNat_ofNat'] at hlead
      omega

theorem reverse_encode {cs : List Char} (h : ∀ c ∈ cs, IsAscii c) :
    (encode cs).reverse = encode cs.reverse := by
  induction cs with
  | nil => rfl
  | cons c cs ih =>
    have hc := encodeChar_ascii (h c List.mem_cons_self)
    rw [encode_cons,List.reverse_append,ih fun c' hc' => h c' (List.mem_cons_of_mem c hc'),
      List.reverse_cons,encode_append,encode_cons,encode_nil,List.append_nil,hc]
    rfl

/-- The reversal of an encoding is an encoding if and only if every character is ASCII. -/
theorem reverse_encode_iff (cs : List Char) :
    (∃ cs', (encode cs).reverse = encode cs') ↔ ∀ c ∈ cs, IsAscii c := by
  constructor
  · induction cs using List.reverseRecOn with
    | nil => simp
    | append_singleton cs c ih =>
      intro h
      obtain ⟨cs',h⟩ := h
      rw [encode_append,encode_cons,encode_nil,List.append_nil,List.reverse_append] at h
      by_cases hc : IsAscii c
      · rw [encodeChar_ascii hc] at h
        obtain ⟨cs'',-,hrest⟩ := encode_eq_cons hc h.symm
        have hcs := ih ⟨cs'',hrest.symm⟩
        intro c' hc'
        rcases List.mem_append.mp hc' with hmem | hmem
        · exact hcs c' hmem
        · rwa [List.mem_singleton.mp hmem]
      · -- the last byte of the character would come first
        obtain ⟨lead,middle,last,henc,-,-,hlow,hhigh⟩ := encodeChar_wide hc
        rw [henc,List.reverse_cons,List.reverse_append] at h
        have hhead := head_encode h.symm
        omega
  · intro h
    exact ⟨cs.reverse,reverse_encode h⟩

theorem zero_mem_encode {cs : List Char} : 0 ∈ encode cs ↔ Char.ofNat 0 ∈ cs := by
  have hchar (c : Char) : 0 ∈ String.utf8EncodeChar c ↔ Char.ofNat 0 = c := by
    by_cases hc : IsAscii c
    · have hlt : c.toNat < 128 := hc
      rw [encodeChar_ascii hc,List.mem_singleton,← UInt8.toNat_inj,← Char.toNat_inj,
        UInt8.toNat_ofNat',Nat.mod_eq_of_lt (by omega)]
      rfl
    · obtain ⟨lead,middle,last,henc,hlead,hmiddle,hlow,-⟩ := encodeChar_wide hc
      refine iff_of_false ?_ ?_
      · rw [henc,List.mem_cons,List.mem_append,List.mem_singleton]
        intro h
        rcases h with hzero | hmem | hzero
        · rw [← hzero] at hlead
          exact absurd hlead (by decide)
        · exact absurd (hmiddle 0 hmem) (by decide)
        · rw [← hzero] at hlow
          exact absurd hlow (by decide)
      · intro hzero
        apply hc
        rw [← hzero]
        decide
  simp only [encode,List.mem_flatMap,hchar,exists_eq_right']

end Utf8
