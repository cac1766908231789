import Mathlib.Data.Nat.Bitwise
import Mathlib.Tactic.Ring

/-!
# LEB128

Numbers in groups of seven bits, the lowest group first. Every byte but the last has its high bit
set. A number has many encodings, as its sign may be repeated in high groups.
-/

namespace Leb128

inductive IsLeb : List UInt8 → Prop
  | last {b : UInt8} (h : b.toNat < 128) : IsLeb [b]
  | more {b : UInt8} {bs : List UInt8} (h : 128 ≤ b.toNat) (hbs : IsLeb bs) : IsLeb (b::bs)

def unsigned : List UInt8 → ℕ
  | [] => 0
  | b::bs => b.toNat % 128 + 128 * unsigned bs

/-- The highest bit of the last group counts negative. -/
def signed : List UInt8 → ℤ
  | [] => 0
  | [b] => if b.toNat % 128 < 64 then b.toNat % 128 else b.toNat % 128 - 128
  | b::bs => b.toNat % 128 + 128 * signed bs

section Values

variable {b : UInt8} {bs : List UInt8}

theorem IsLeb.ne_nil (h : IsLeb bs) : bs ≠ [] := by
  cases h <;> simp

theorem IsLeb.length_pos (h : IsLeb bs) : 0 < bs.length := List.length_pos_iff.mpr h.ne_nil

private theorem pow_length_cons (b : UInt8) (bs : List UInt8) :
    2 ^ (7 * (b::bs).length) = 128 * 2 ^ (7 * bs.length) := by
  rw [List.length_cons,Nat.mul_succ,pow_add]
  ring

theorem unsigned_lt (bs : List UInt8) : unsigned bs < 2 ^ (7 * bs.length) := by
  induction bs with
  | nil => simp [unsigned]
  | cons b bs ih =>
    have hb := Nat.mod_lt b.toNat (by decide : 0 < 128)
    rw [pow_length_cons,unsigned]
    omega

private theorem signed_cons (h : bs ≠ []) : signed (b::bs) = b.toNat % 128 + 128 * signed bs := by
  cases bs with
  | nil => exact absurd rfl h
  | cons c cs => rfl

theorem signed_eq (h : IsLeb bs) :
    signed bs = unsigned bs ∧ 2 * unsigned bs < 2 ^ (7 * bs.length) ∨
      signed bs = unsigned bs - (2 ^ (7 * bs.length) : ℕ) ∧ 2 ^ (7 * bs.length) ≤ 2 * unsigned bs := by
  induction h with
  | @last b hb =>
    simp only [signed,unsigned,List.length_singleton]
    split <;> omega
  | @more b bs hb hbs ih =>
    have hlt := Nat.mod_lt b.toNat (by decide : 0 < 128)
    have heven : 2 ∣ 2 ^ (7 * bs.length) := dvd_pow_self 2 (by have := hbs.length_pos; omega)
    rw [pow_length_cons,signed_cons hbs.ne_nil,unsigned]
    generalize 2 ^ (7 * bs.length) = weight at *
    omega

theorem unsigned_top (h : IsLeb bs) {last : UInt8} (hlast : bs.getLast? = some last) :
    last.toNat < 128 ∧ unsigned bs / 2 ^ (7 * (bs.length - 1)) = last.toNat := by
  induction h with
  | @last b hb =>
    obtain rfl : b = last := by simpa using hlast
    simp only [unsigned,List.length_singleton,Nat.sub_self,Nat.mul_zero,pow_zero,Nat.div_one]
    omega
  | @more b bs hb hbs ih =>
    rw [List.getLast?_cons_of_ne_nil hbs.ne_nil] at hlast
    obtain ⟨hlt,htop⟩ := ih hlast
    obtain ⟨n,hn⟩ : ∃ n, bs.length = n + 1 := Nat.exists_eq_add_one.mpr hbs.length_pos
    have hpow : 2 ^ (7 * ((b::bs).length - 1)) = 128 * 2 ^ (7 * (bs.length - 1)) := by
      rw [List.length_cons,hn,Nat.add_sub_cancel,Nat.add_sub_cancel,Nat.mul_succ,pow_add]
      ring
    have hgroup : (b.toNat % 128 + 128 * unsigned bs) / 128 = unsigned bs := by omega
    rw [hpow,unsigned,← Nat.div_div_eq_div_mul,hgroup]
    exact ⟨hlt,htop⟩

theorem sign_iff (h : IsLeb bs) {last : UInt8} (hlast : bs.getLast? = some last) :
    2 ^ (7 * bs.length) ≤ 2 * unsigned bs ↔ 64 ≤ last.toNat % 128 := by
  induction h with
  | @last b hb =>
    obtain rfl : b = last := by simpa using hlast
    simp only [unsigned,List.length_singleton]
    omega
  | @more b bs hb hbs ih =>
    have hlt := Nat.mod_lt b.toNat (by decide : 0 < 128)
    have heven : 2 ∣ 2 ^ (7 * bs.length) := dvd_pow_self 2 (by have := hbs.length_pos; omega)
    rw [List.getLast?_cons_of_ne_nil hbs.ne_nil] at hlast
    rw [← ih hlast,pow_length_cons,unsigned]
    generalize 2 ^ (7 * bs.length) = weight at *
    omega

theorem IsLeb.exists_last {bs : List UInt8} (h : IsLeb bs) : ∃ b ∈ bs, b.toNat < 128 := by
  induction h with
  | @last b hb => exact ⟨b,List.mem_singleton_self b,hb⟩
  | more _ _ ih =>
    obtain ⟨b,hmem,hb⟩ := ih
    exact ⟨b,List.mem_cons_of_mem _ hmem,hb⟩

end Values

section Prefix

variable {bs bs' rest rest' : List UInt8}

/-- No encoding is the beginning of another. -/
theorem IsLeb.append_inj (h : IsLeb bs) (h' : IsLeb bs') (heq : bs ++ rest = bs' ++ rest') :
    bs = bs' ∧ rest = rest' := by
  induction h generalizing bs' with
  | @last b hb =>
    cases h' with
    | last hb' =>
      obtain ⟨rfl,rfl⟩ := List.cons.inj heq
      exact ⟨rfl,rfl⟩
    | more hb' _ =>
      obtain ⟨rfl,-⟩ := List.cons.inj heq
      omega
  | @more b bs hb hbs ih =>
    cases h' with
    | last hb' =>
      obtain ⟨rfl,-⟩ := List.cons.inj heq
      omega
    | more hb' hbs' =>
      obtain ⟨rfl,htail⟩ := List.cons.inj heq
      obtain ⟨rfl,rfl⟩ := ih hbs' htail
      exact ⟨rfl,rfl⟩

end Prefix

end Leb128
