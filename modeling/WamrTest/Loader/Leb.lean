import WamrTest.Framework.Leb128
import WamrTest.Framework.Fallible
import WamrTest.Framework.MachineInt

/-!
# The loader's `read_leb`

Which bytes it accepts as a number, and what it says of the others.
-/

namespace WamrTest.Loader

open Leb128

def tooLong : String := "integer representation too long"

def tooLarge : String := "integer too large"

def unexpectedEnd : String := "unexpected end of section or function"

/-- The loop: the bits so far, the number of bytes and the last of them. -/
def readLebLoop (maxbits : ℕ) (result : UInt64) (bcnt : ℕ) : List UInt8 → Except String (UInt64 × ℕ × UInt8 × List UInt8)
  | [] => if bcnt + 1 > (maxbits + 6) / 7 then .error tooLong else .error unexpectedEnd
  | byte::buf =>
    if bcnt + 1 > (maxbits + 6) / 7 then .error tooLong
    else
      let result := result ||| ((byte.toUInt64 &&& 0x7f) <<< UInt64.ofNat (7 * bcnt))
      if byte &&& 0x80 = 0 then .ok (result, bcnt + 1, byte, buf)
      else readLebLoop maxbits result (bcnt + 1) buf

def readLeb (maxbits : ℕ) (sign : Bool) (buf : List UInt8) : Except String (UInt64 × List UInt8) := do
  let (result, bcnt, byte, rest) ← readLebLoop maxbits 0 0 buf
  let shift := 7 * bcnt
  if ¬ sign ∧ maxbits = 32 ∧ shift ≥ maxbits then
    -- The top bits set represent values > 32 bits
    if byte &&& 0xf0 ≠ 0 then .error tooLarge else .ok (result, rest)
  else if sign ∧ maxbits = 32 then
    if shift < maxbits then
      .ok (if byte &&& 0x40 ≠ 0 then result ||| (~~~0 <<< UInt64.ofNat shift) else result, rest)
    else if byte &&& 0x8 ≠ 0 ∧ byte &&& 0xf0 ≠ 0x70 ∨ byte &&& 0x8 = 0 ∧ byte &&& 0xf0 ≠ 0 then .error tooLarge
    else .ok (result, rest)
  else if sign ∧ maxbits = 64 then
    if shift < maxbits then
      .ok (if byte &&& 0x40 ≠ 0 then result ||| (~~~0 <<< UInt64.ofNat shift) else result, rest)
    else if byte &&& 0x1 ≠ 0 ∧ byte &&& 0xfe ≠ 0x7e ∨ byte &&& 0x1 = 0 ∧ byte &&& 0xfe ≠ 0 then .error tooLarge
    else .ok (result, rest)
  else .ok (result, rest)

/-- The macros over `read_leb`. -/
inductive LebKind
  | uint32
  | int32
  | int64
deriving DecidableEq

def LebKind.maxbits : LebKind → ℕ
  | .uint32 | .int32 => 32
  | .int64 => 64

def LebKind.sign : LebKind → Bool
  | .uint32 => false
  | .int32 | .int64 => true

def readLebAs (kind : LebKind) (buf : List UInt8) : Except String (BitVec kind.maxbits × List UInt8) := do
  let (res64, rest) ← readLeb kind.maxbits kind.sign buf
  .ok (res64.toBitVec.setWidth kind.maxbits, rest)

def readLebUint32 (buf : List UInt8) : Except String (UInt32 × List UInt8) := do
  let (res, rest) ← readLebAs .uint32 buf
  .ok (⟨res⟩, rest)

section Bits

theorem byte_bits (b : UInt8) : (b &&& 0x80 = 0 ↔ b.toNat < 128) ∧ (b &&& 0x40 = 0 ↔ b.toNat % 128 < 64) ∧
    (b &&& 0xf0 = 0 ↔ b.toNat < 16) ∧ (b &&& 0xf0 = 0x70 ↔ b.toNat / 16 = 7) ∧ (b &&& 0x8 = 0 ↔ b.toNat % 16 < 8) ∧
    (b &&& 0xfe = 0 ↔ b.toNat < 2) ∧ (b &&& 0xfe = 0x7e ↔ b.toNat / 2 = 63) ∧ (b &&& 0x1 = 0 ↔ b.toNat % 2 = 0) := by
  have hall : ∀ k : Fin 256, let b := UInt8.ofFin k
      (b &&& 0x80 = 0 ↔ b.toNat < 128) ∧ (b &&& 0x40 = 0 ↔ b.toNat % 128 < 64) ∧
      (b &&& 0xf0 = 0 ↔ b.toNat < 16) ∧ (b &&& 0xf0 = 0x70 ↔ b.toNat / 16 = 7) ∧
      (b &&& 0x8 = 0 ↔ b.toNat % 16 < 8) ∧ (b &&& 0xfe = 0 ↔ b.toNat < 2) ∧
      (b &&& 0xfe = 0x7e ↔ b.toNat / 2 = 63) ∧ (b &&& 0x1 = 0 ↔ b.toNat % 2 = 0) := by
    decide +kernel
  exact hall b.toFin

private theorem or_shifted {acc shift g : ℕ} (hacc : acc < 2 ^ shift) (hshift : shift < 64) :
    acc ||| (g <<< shift) % 2 ^ 64 = (acc + 2 ^ shift * g) % 2 ^ 64 := by
  have hpow : 2 ^ 64 = 2 ^ shift * 2 ^ (64 - shift) := by rw [← pow_add,Nat.add_sub_cancel' hshift.le]
  have hlow : (acc + 2 ^ shift * g) % 2 ^ shift = acc := by rw [Nat.add_mul_mod_self_left,Nat.mod_eq_of_lt hacc]
  have hhigh : (acc + 2 ^ shift * g) / 2 ^ shift = g := by
    rw [Nat.add_mul_div_left _ _ (Nat.two_pow_pos shift),Nat.div_eq_of_lt hacc,zero_add]
  rw [Nat.shiftLeft_eq,Nat.mul_comm g,hpow,Nat.mul_mod_mul_left,Nat.mod_mul,hlow,hhigh,Nat.or_comm,
    ← Nat.two_pow_add_eq_or_of_lt hacc,Nat.add_comm]

private theorem toNat_shift {shift : ℕ} (hshift : shift < 64) : (UInt64.ofNat shift).toNat % 64 = shift := by
  rw [UInt64.toNat_ofNat']
  omega

private theorem or_group {result : UInt64} {acc shift : ℕ} (byte : UInt8) (hresult : result.toNat = acc)
    (hacc : acc < 2 ^ shift)
    (hshift : shift < 64) :
    (result ||| ((byte.toUInt64 &&& 0x7f) <<< UInt64.ofNat shift)).toNat =
      (acc + 2 ^ shift * (byte.toNat % 128)) % 2 ^ 64 := by
  have hgroup : (byte.toUInt64 &&& 0x7f).toNat = byte.toNat % 128 := Nat.and_two_pow_sub_one_eq_mod byte.toNat 7
  rw [UInt64.toNat_or,UInt64.toNat_shiftLeft,toNat_shift hshift,hgroup,hresult,or_shifted hacc hshift]

private theorem or_sign {result : UInt64} {acc shift : ℕ} (hresult : result.toNat = acc) (hacc : acc < 2 ^ shift)
    (hshift : shift < 64) :
    (result ||| (~~~0 <<< UInt64.ofNat shift)).toNat = acc + (2 ^ 64 - 2 ^ shift) := by
  have hones : (~~~0 : UInt64).toNat = 2 ^ 64 - 1 := rfl
  have hpow : 2 ^ shift < 2 ^ 64 := Nat.pow_lt_pow_right (by decide) hshift
  have hsum : acc + 2 ^ shift * (2 ^ 64 - 1) = acc + (2 ^ 64 - 2 ^ shift) + 2 ^ 64 * (2 ^ shift - 1) := by
    obtain ⟨k,hk⟩ : ∃ k, 2 ^ shift = k + 1 := ⟨2 ^ shift - 1,by have := Nat.two_pow_pos shift; omega⟩
    rw [hk] at hpow ⊢
    omega
  rw [UInt64.toNat_or,UInt64.toNat_shiftLeft,toNat_shift hshift,hones,hresult,or_shifted hacc hshift,hsum,
    Nat.add_mul_mod_self_left]
  apply Nat.mod_eq_of_lt
  omega

end Bits

section Loop

variable {maxbits : ℕ}

private theorem readLebLoop_spec (hmax : (maxbits + 6) / 7 ≤ 10) (buf : List UInt8) {result : UInt64} {acc bcnt : ℕ}
    (hresult : result.toNat = acc) (hacc : acc < 2 ^ (7 * bcnt)) (hbcnt : bcnt ≤ (maxbits + 6) / 7) :
    (∃ bs rest last res, buf = bs ++ rest ∧ IsLeb bs ∧ bs.getLast? = some last ∧
        bcnt + bs.length ≤ (maxbits + 6) / 7 ∧ res.toNat = (acc + 2 ^ (7 * bcnt) * unsigned bs) % 2 ^ 64 ∧
        readLebLoop maxbits result bcnt buf = .ok (res, bcnt + bs.length, last, rest)) ∨
      ((maxbits + 6) / 7 ≤ bcnt + buf.length ∧ (∀ b ∈ buf.take ((maxbits + 6) / 7 - bcnt), 128 ≤ b.toNat) ∧
        readLebLoop maxbits result bcnt buf = .error tooLong) ∨
      (bcnt + buf.length < (maxbits + 6) / 7 ∧ (∀ b ∈ buf, 128 ≤ b.toNat) ∧
        readLebLoop maxbits result bcnt buf = .error unexpectedEnd) := by
  induction buf generalizing result acc bcnt with
  | nil =>
    unfold readLebLoop
    split
    next hgt => exact .inr (.inl ⟨by rw [List.length_nil]; omega,by simp,rfl⟩)
    next hle => exact .inr (.inr ⟨by rw [List.length_nil]; omega,by simp,rfl⟩)
  | cons b buf ih =>
    unfold readLebLoop
    split
    next hgt =>
      have hzero : (maxbits + 6) / 7 - bcnt = 0 := by omega
      rw [hzero]
      exact .inr (.inl ⟨by omega,by simp,rfl⟩)
    next hle =>
      have hgroup := or_group b hresult hacc (by omega)
      have hlt := Nat.mod_lt b.toNat (by decide : 0 < 128)
      simp only
      split
      next hend =>
        rw [(byte_bits b).1] at hend
        refine .inl ⟨[b],buf,b,_,rfl,.last hend,rfl,by rw [List.length_singleton]; omega,?_,rfl⟩
        rw [hgroup,unsigned,unsigned,Nat.mul_zero,Nat.add_zero]
      next hcont =>
        rw [(byte_bits b).1,not_lt] at hcont
        have hpow : 2 ^ (7 * (bcnt + 1)) = 2 ^ (7 * bcnt) * 128 := by
          rw [Nat.mul_succ,pow_add]
          rfl
        have hsmall : (acc + 2 ^ (7 * bcnt) * (b.toNat % 128)) % 2 ^ 64 < 2 ^ (7 * (bcnt + 1)) := by
          have hmul : 2 ^ (7 * bcnt) * (b.toNat % 128) ≤ 2 ^ (7 * bcnt) * 127 := Nat.mul_le_mul_left _ (by omega)
          have hmod := Nat.mod_le (acc + 2 ^ (7 * bcnt) * (b.toNat % 128)) (2 ^ 64)
          omega
        rcases ih hgroup hsmall (by omega) with
          ⟨bs,rest,last,res,rfl,hbs,hlast,hlen,hres,hok⟩ | ⟨hlen,hmore,herr⟩ | ⟨hlen,hmore,herr⟩
        · refine .inl ⟨b::bs,rest,last,res,rfl,.more hcont hbs,?_,?_,?_,?_⟩
          · rw [List.getLast?_cons_of_ne_nil hbs.ne_nil,hlast]
          · rw [List.length_cons]
            omega
          · rw [hres,Nat.mod_add_mod,unsigned,hpow]
            congr 1
            ring
          · rw [hok,List.length_cons,Nat.add_assoc,Nat.add_comm 1]
        · have hsucc : (maxbits + 6) / 7 - bcnt = (maxbits + 6) / 7 - (bcnt + 1) + 1 := by omega
          refine .inr (.inl ⟨by rw [List.length_cons]; omega,?_,herr⟩)
          rw [hsucc,List.take_succ_cons]
          exact List.forall_mem_cons.mpr ⟨hcont,hmore⟩
        · exact .inr (.inr ⟨by rw [List.length_cons]; omega,List.forall_mem_cons.mpr ⟨hcont,hmore⟩,herr⟩)

end Loop

section Outcome

def LebKind.limit (kind : LebKind) : ℕ := (kind.maxbits + 6) / 7

/-- The number that some bytes stand for. -/
def LebKind.value (kind : LebKind) (bs : List UInt8) : ℤ := if kind.sign then signed bs else unsigned bs

def LebKind.Fits (kind : LebKind) (bs : List UInt8) : Prop :=
  if kind.sign then -2 ^ (kind.maxbits - 1) ≤ signed bs ∧ signed bs < 2 ^ (kind.maxbits - 1)
  else unsigned bs < 2 ^ kind.maxbits

def LebKind.toInt (kind : LebKind) (v : BitVec kind.maxbits) : ℤ := if kind.sign then v.toInt else v.toNat

variable {bs rest : List UInt8} {last : UInt8} {res : UInt64}

private theorem pow_le_of_length {n k : ℕ} (h : n ≤ k) :
    2 ^ (7 * n) ≤ 2 ^ (7 * k) := Nat.pow_le_pow_right (by decide) (by omega)

private theorem readLeb_uint32 (hbs : IsLeb bs) (hlast : bs.getLast? = some last) (hlen : bs.length ≤ 5)
    (hres : res.toNat = unsigned bs % 2 ^ 64) {buf : List UInt8}
    (hloop : readLebLoop 32 0 0 buf = .ok (res, bs.length, last, rest)) :
    unsigned bs < 2 ^ 32 ∧ readLeb 32 false buf = .ok (res, rest) ∧ (res.toNat : ℤ) = unsigned bs ∨
      ¬ unsigned bs < 2 ^ 32 ∧ readLeb 32 false buf = .error tooLarge := by
  obtain ⟨hlt,htop⟩ := unsigned_top hbs hlast
  have hbound := unsigned_lt bs
  have hpow := pow_le_of_length hlen
  have hread : readLeb 32 false buf =
      if 7 * bs.length ≥ 32 then if last &&& 0xf0 ≠ 0 then .error tooLarge else .ok (res, rest) else .ok (res, rest) := by
    unfold readLeb
    rw [hloop]
    simp [bind,Except.bind]
  rw [hread]
  split
  next hfull =>
    have hfive : bs.length = 5 := by omega
    rw [hfive] at htop
    have htop' := (byte_bits last).2.2.1
    split
    next htoo =>
      rw [ne_eq,htop'] at htoo
      exact .inr ⟨by omega,rfl⟩
    next hfits =>
      rw [not_not,htop'] at hfits
      exact .inl ⟨by omega,rfl,by omega⟩
  next hfew =>
    have hpow' := pow_le_of_length (n := bs.length) (k := 4) (by omega)
    exact .inl ⟨by omega,rfl,by omega⟩

private theorem extend_signed (hbs : IsLeb bs) (hlast : bs.getLast? = some last) (hlen : 7 * bs.length < 64)
    (hres : res.toNat = unsigned bs % 2 ^ 64) :
    ((if last &&& 0x40 ≠ 0 then res ||| (~~~0 <<< UInt64.ofNat (7 * bs.length)) else res).toNat : ℤ) % 2 ^ 64 =
      signed bs % 2 ^ 64 := by
  have hbound := unsigned_lt bs
  have hsigned := signed_eq hbs
  have hsign := sign_iff hbs hlast
  have hpow : 2 ^ (7 * bs.length) < 2 ^ 64 := Nat.pow_lt_pow_right (by decide) hlen
  rw [Nat.mod_eq_of_lt (by omega)] at hres
  have hbit := (byte_bits last).2.1
  split
  next hneg =>
    rw [ne_eq,hbit] at hneg
    rw [or_sign hres hbound hlen]
    omega
  next hnonneg =>
    rw [not_not,hbit] at hnonneg
    rw [hres]
    omega

private theorem readLeb_int32 (hbs : IsLeb bs) (hlast : bs.getLast? = some last) (hlen : bs.length ≤ 5)
    (hres : res.toNat = unsigned bs % 2 ^ 64) {buf : List UInt8}
    (hloop : readLebLoop 32 0 0 buf = .ok (res, bs.length, last, rest)) :
    (-2 ^ 31 ≤ signed bs ∧ signed bs < 2 ^ 31) ∧
        (∃ res' : UInt64, readLeb 32 true buf = .ok (res', rest) ∧ (res'.toNat : ℤ) % 2 ^ 32 = signed bs % 2 ^ 32) ∨
      ¬ (-2 ^ 31 ≤ signed bs ∧ signed bs < 2 ^ 31) ∧ readLeb 32 true buf = .error tooLarge := by
  obtain ⟨hlt,htop⟩ := unsigned_top hbs hlast
  have hbound := unsigned_lt bs
  have hsigned := signed_eq hbs
  have hread : readLeb 32 true buf =
      if 7 * bs.length < 32 then
        .ok (if last &&& 0x40 ≠ 0 then res ||| (~~~0 <<< UInt64.ofNat (7 * bs.length)) else res, rest)
      else if last &&& 0x8 ≠ 0 ∧ last &&& 0xf0 ≠ 0x70 ∨ last &&& 0x8 = 0 ∧ last &&& 0xf0 ≠ 0 then .error tooLarge
      else .ok (res, rest) := by
    unfold readLeb
    rw [hloop]
    simp [bind,Except.bind]
  rw [hread]
  split
  next hfew =>
    have hext := extend_signed hbs hlast (by omega) hres
    have hpow := pow_le_of_length (n := bs.length) (k := 4) (by omega)
    exact .inl ⟨by omega,_,rfl,by omega⟩
  next hfull =>
    have hfive : bs.length = 5 := by omega
    rw [hfive] at htop hbound hsigned
    obtain ⟨-,-,hlow,hhigh,hbit,-⟩ := byte_bits last
    split
    next htoo =>
      rw [ne_eq,ne_eq,ne_eq,hlow,hhigh,hbit] at htoo
      exact .inr ⟨by omega,rfl⟩
    next hfits =>
      rw [ne_eq,ne_eq,ne_eq,hlow,hhigh,hbit] at hfits
      exact .inl ⟨by omega,_,rfl,by omega⟩

private theorem readLeb_int64 (hbs : IsLeb bs) (hlast : bs.getLast? = some last) (hlen : bs.length ≤ 10)
    (hres : res.toNat = unsigned bs % 2 ^ 64) {buf : List UInt8}
    (hloop : readLebLoop 64 0 0 buf = .ok (res, bs.length, last, rest)) :
    (-2 ^ 63 ≤ signed bs ∧ signed bs < 2 ^ 63) ∧
        (∃ res' : UInt64, readLeb 64 true buf = .ok (res', rest) ∧ (res'.toNat : ℤ) % 2 ^ 64 = signed bs % 2 ^ 64) ∨
      ¬ (-2 ^ 63 ≤ signed bs ∧ signed bs < 2 ^ 63) ∧ readLeb 64 true buf = .error tooLarge := by
  obtain ⟨hlt,htop⟩ := unsigned_top hbs hlast
  have hbound := unsigned_lt bs
  have hsigned := signed_eq hbs
  have hread : readLeb 64 true buf =
      if 7 * bs.length < 64 then
        .ok (if last &&& 0x40 ≠ 0 then res ||| (~~~0 <<< UInt64.ofNat (7 * bs.length)) else res, rest)
      else if last &&& 0x1 ≠ 0 ∧ last &&& 0xfe ≠ 0x7e ∨ last &&& 0x1 = 0 ∧ last &&& 0xfe ≠ 0 then .error tooLarge
      else .ok (res, rest) := by
    unfold readLeb
    rw [hloop]
    simp [bind,Except.bind]
  rw [hread]
  split
  next hfew =>
    have hext := extend_signed hbs hlast (by omega) hres
    have hpow := pow_le_of_length (n := bs.length) (k := 9) (by omega)
    exact .inl ⟨by omega,_,rfl,by omega⟩
  next hfull =>
    have hten : bs.length = 10 := by omega
    rw [hten] at htop hbound hsigned
    obtain ⟨-,-,-,-,-,hlow,hhigh,hbit⟩ := byte_bits last
    split
    next htoo =>
      rw [ne_eq,ne_eq,ne_eq,hlow,hhigh,hbit] at htoo
      exact .inr ⟨by omega,rfl⟩
    next hfits =>
      rw [ne_eq,ne_eq,ne_eq,hlow,hhigh,hbit] at hfits
      exact .inl ⟨by omega,_,rfl,by omega⟩

private theorem toInt_setWidth {w : ℕ} {x : UInt64} {z : ℤ} (h : (x.toNat : ℤ) % 2 ^ (w + 1) = z % 2 ^ (w + 1))
    (hl : -2 ^ w ≤ z) (hh : z < 2 ^ w) : (x.toBitVec.setWidth (w + 1)).toInt = z := by
  have hpow : ((2 ^ (w + 1) : ℕ) : ℤ) = 2 ^ (w + 1) := by norm_num
  have hdouble : (2 : ℤ) ^ (w + 1) = 2 * 2 ^ w := pow_succ' 2 w
  rw [BitVec.toInt_eq_toNat_bmod,BitVec.toNat_setWidth,UInt64.toNat_toBitVec,Int.natCast_mod,Int.emod_bmod,
    ← Int.emod_bmod,hpow,h,← hpow,Int.emod_bmod]
  apply Int.bmod_eq_of_le
  · omega
  · omega

private theorem readLeb_finish (kind : LebKind) (hbs : IsLeb bs) (hlast : bs.getLast? = some last)
    (hlen : bs.length ≤ kind.limit) (hres : res.toNat = unsigned bs % 2 ^ 64) {buf : List UInt8}
    (hloop : readLebLoop kind.maxbits 0 0 buf = .ok (res, bs.length, last, rest)) :
    (kind.Fits bs ∧ ∃ v, readLebAs kind buf = .ok (v, rest) ∧ kind.toInt v = kind.value bs) ∨
      ¬ kind.Fits bs ∧ readLebAs kind buf = .error tooLarge := by
  cases kind with
  | uint32 =>
    rcases readLeb_uint32 hbs hlast hlen hres hloop with ⟨hfits,hok,hv⟩ | ⟨hfits,herr⟩
    · refine .inl ⟨hfits,res.toBitVec.setWidth 32,?_,?_⟩
      · simp only [readLebAs,LebKind.maxbits,LebKind.sign,hok]
        rfl
      · change ((res.toBitVec.setWidth 32).toNat : ℤ) = unsigned bs
        rw [BitVec.toNat_setWidth,UInt64.toNat_toBitVec]
        omega
    · refine .inr ⟨hfits,?_⟩
      simp only [readLebAs,LebKind.maxbits,LebKind.sign,herr]
      rfl
  | int32 =>
    rcases readLeb_int32 hbs hlast hlen hres hloop with ⟨hfits,res',hok,hv⟩ | ⟨hfits,herr⟩
    · refine .inl ⟨hfits,res'.toBitVec.setWidth 32,?_,toInt_setWidth hv hfits.1 hfits.2⟩
      simp only [readLebAs,LebKind.maxbits,LebKind.sign,hok]
      rfl
    · refine .inr ⟨hfits,?_⟩
      simp only [readLebAs,LebKind.maxbits,LebKind.sign,herr]
      rfl
  | int64 =>
    rcases readLeb_int64 hbs hlast hlen hres hloop with ⟨hfits,res',hok,hv⟩ | ⟨hfits,herr⟩
    · refine .inl ⟨hfits,res'.toBitVec.setWidth 64,?_,toInt_setWidth hv hfits.1 hfits.2⟩
      simp only [readLebAs,LebKind.maxbits,LebKind.sign,hok]
      rfl
    · refine .inr ⟨hfits,?_⟩
      simp only [readLebAs,LebKind.maxbits,LebKind.sign,herr]
      rfl

private theorem readLebAs_error {kind : LebKind} {buf : List UInt8} {e : String}
    (h : readLebLoop kind.maxbits 0 0 buf = .error e) : readLebAs kind buf = .error e := by
  unfold readLebAs readLeb
  rw [h]
  rfl

/-- The bytes of a number of the kind. -/
structure LebKind.Encodes (kind : LebKind) (bs : List UInt8) : Prop where
  leb : IsLeb bs
  short : bs.length ≤ kind.limit
  fits : kind.Fits bs

/-- A buffer that begins with a number in at most so many bytes gives the number if it fits. -/
theorem readLeb_cases (kind : LebKind) (buf : List UInt8) :
    (∃ bs rest v, buf = bs ++ rest ∧ kind.Encodes bs ∧ readLebAs kind buf = .ok (v, rest) ∧
        kind.toInt v = kind.value bs) ∨
      (∃ bs rest, buf = bs ++ rest ∧ IsLeb bs ∧ bs.length ≤ kind.limit ∧ ¬ kind.Fits bs ∧
        readLebAs kind buf = .error tooLarge) ∨
      (kind.limit ≤ buf.length ∧ (∀ b ∈ buf.take kind.limit, 128 ≤ b.toNat) ∧ readLebAs kind buf = .error tooLong) ∨
      (buf.length < kind.limit ∧ (∀ b ∈ buf, 128 ≤ b.toNat) ∧ readLebAs kind buf = .error unexpectedEnd) := by
  have hmax : (kind.maxbits + 6) / 7 ≤ 10 := by cases kind <;> decide
  have hzero : (0 : UInt64).toNat = 0 := rfl
  rcases readLebLoop_spec hmax buf hzero (by decide : 0 < 2 ^ (7 * 0)) (Nat.zero_le _) with
    ⟨bs,rest,last,res,rfl,hbs,hlast,hlen,hres,hok⟩ | ⟨hlen,hmore,herr⟩ | ⟨hlen,hmore,herr⟩
  · rw [Nat.mul_zero,pow_zero,zero_add,one_mul] at hres
    rw [zero_add] at hlen hok
    rcases readLeb_finish kind hbs hlast hlen hres hok with ⟨hfits,v,hread,hv⟩ | ⟨hfits,hread⟩
    · exact .inl ⟨bs,rest,v,rfl,⟨hbs,hlen,hfits⟩,hread,hv⟩
    · exact .inr (.inl ⟨bs,rest,rfl,hbs,hlen,hfits,hread⟩)
  · rw [zero_add,Nat.sub_zero] at *
    exact .inr (.inr (.inl ⟨hlen,hmore,readLebAs_error herr⟩))
  · rw [zero_add] at hlen
    exact .inr (.inr (.inr ⟨hlen,hmore,readLebAs_error herr⟩))

theorem LebKind.toInt_injective {kind : LebKind} {v w : BitVec kind.maxbits} (h : kind.toInt v = kind.toInt w) :
    v = w := by
  cases kind with
  | uint32 => exact BitVec.eq_of_toNat_eq (Int.ofNat.inj h)
  | int32 => exact BitVec.eq_of_toInt_eq h
  | int64 => exact BitVec.eq_of_toInt_eq h

/-- A buffer that begins with a number in at most so many bytes does not lack its last byte. -/
theorem not_more {kind : LebKind} {bs buf rest : List UInt8} (h : IsLeb bs) (hlen : bs.length ≤ kind.limit)
    (heq : buf = bs ++ rest) : ¬ ∀ b ∈ buf.take kind.limit, 128 ≤ b.toNat := by
  intro hmore
  obtain ⟨b,hmem,hb⟩ := h.exists_last
  have hin : b ∈ buf.take kind.limit := by
    rw [heq,List.take_append,List.take_of_length_le hlen]
    exact List.mem_append_left _ hmem
  exact absurd (hmore b hin) (not_le.mpr hb)

theorem LebKind.Encodes.read {kind : LebKind} {bs : List UInt8} (h : kind.Encodes bs) (rest : List UInt8) :
    ∃ v, readLebAs kind (bs ++ rest) = .ok (v, rest) ∧ kind.toInt v = kind.value bs := by
  rcases readLeb_cases kind (bs ++ rest) with
    ⟨bs',rest',v,heq,hbs,hok,hv⟩ | ⟨bs',rest',heq,hleb,_,hfits,_⟩ | ⟨_,hmore,_⟩ | ⟨_,hmore,_⟩
  · obtain ⟨rfl,rfl⟩ := h.leb.append_inj hbs.leb heq
    exact ⟨v,hok,hv⟩
  · obtain ⟨rfl,rfl⟩ := h.leb.append_inj hleb heq
    exact absurd h.fits hfits
  · exact absurd hmore (not_more h.leb h.short rfl)
  · exact absurd (fun b hb => hmore b (List.mem_of_mem_take hb)) (not_more h.leb h.short rfl)

theorem readLebAs_iff {kind : LebKind} {buf rest : List UInt8} {v : BitVec kind.maxbits} :
    readLebAs kind buf = .ok (v, rest) ↔ ∃ bs, buf = bs ++ rest ∧ kind.Encodes bs ∧ kind.toInt v = kind.value bs := by
  constructor
  · intro h
    rcases readLeb_cases kind buf with ⟨bs,rest',v',heq,hbs,hok,hv⟩ | ⟨_,_,_,_,_,_,herr⟩ | ⟨_,_,herr⟩ | ⟨_,_,herr⟩
    · rw [h] at hok
      obtain ⟨rfl,rfl⟩ := Prod.mk.inj (Except.ok.inj hok)
      exact ⟨bs,heq,hbs,hv⟩
    all_goals
      rw [h] at herr
      exact absurd herr (by simp)
  · rintro ⟨bs,rfl,hbs,hv⟩
    obtain ⟨v',hread,hv'⟩ := hbs.read rest
    obtain rfl := LebKind.toInt_injective (hv.trans hv'.symm)
    exact hread

private theorem readLebAs_tooLarge_iff {kind : LebKind} {buf : List UInt8} : readLebAs kind buf = .error tooLarge ↔
    ∃ bs rest, buf = bs ++ rest ∧ IsLeb bs ∧ bs.length ≤ kind.limit ∧ ¬ kind.Fits bs := by
  constructor
  · intro h
    rcases readLeb_cases kind buf with ⟨_,_,_,_,_,hok,_⟩ | ⟨bs,rest,heq,hleb,hlen,hfits,_⟩ | ⟨_,_,herr⟩ | ⟨_,_,herr⟩
    · exact absurd (h.symm.trans hok) (by simp)
    · exact ⟨bs,rest,heq,hleb,hlen,hfits⟩
    · exact absurd (Except.error.inj (h.symm.trans herr)) (by decide)
    · exact absurd (Except.error.inj (h.symm.trans herr)) (by decide)
  · rintro ⟨bs,rest,heq,hleb,hlen,hfits⟩
    rcases readLeb_cases kind buf with ⟨bs',rest',_,heq',hbs',_,_⟩ | ⟨_,_,_,_,_,_,herr⟩ | ⟨_,hmore,_⟩ | ⟨_,hmore,_⟩
    · obtain ⟨rfl,rfl⟩ := hleb.append_inj hbs'.leb (heq.symm.trans heq')
      exact absurd hbs'.fits hfits
    · exact herr
    · exact absurd hmore (not_more hleb hlen heq)
    · exact absurd (fun b hb => hmore b (List.mem_of_mem_take hb)) (not_more hleb hlen heq)

private theorem readLebAs_tooLong_iff {kind : LebKind} {buf : List UInt8} : readLebAs kind buf = .error tooLong ↔
    kind.limit ≤ buf.length ∧ ∀ b ∈ buf.take kind.limit, 128 ≤ b.toNat := by
  constructor
  · intro h
    rcases readLeb_cases kind buf with ⟨_,_,_,_,_,hok,_⟩ | ⟨_,_,_,_,_,_,herr⟩ | ⟨hlen,hmore,_⟩ | ⟨_,_,herr⟩
    · exact absurd (h.symm.trans hok) (by simp)
    · exact absurd (Except.error.inj (h.symm.trans herr)) (by decide)
    · exact ⟨hlen,hmore⟩
    · exact absurd (Except.error.inj (h.symm.trans herr)) (by decide)
  · rintro ⟨hlen,hmore⟩
    rcases readLeb_cases kind buf with ⟨_,_,_,heq,hbs,_,_⟩ | ⟨_,_,heq,hleb,hshort,_,_⟩ | ⟨_,_,herr⟩ | ⟨hfew,_,_⟩
    · exact absurd hmore (not_more hbs.leb hbs.short heq)
    · exact absurd hmore (not_more hleb hshort heq)
    · exact herr
    · exact absurd hlen (not_le.mpr hfew)

private theorem readLebAs_unexpectedEnd_iff {kind : LebKind} {buf : List UInt8} :
    readLebAs kind buf = .error unexpectedEnd ↔ buf.length < kind.limit ∧ ∀ b ∈ buf, 128 ≤ b.toNat := by
  constructor
  · intro h
    rcases readLeb_cases kind buf with ⟨_,_,_,_,_,hok,_⟩ | ⟨_,_,_,_,_,_,herr⟩ | ⟨_,_,herr⟩ | ⟨hlen,hmore,_⟩
    · exact absurd (h.symm.trans hok) (by simp)
    · exact absurd (Except.error.inj (h.symm.trans herr)) (by decide)
    · exact absurd (Except.error.inj (h.symm.trans herr)) (by decide)
    · exact ⟨hlen,hmore⟩
  · rintro ⟨hlen,hmore⟩
    have hmore' : ∀ b ∈ buf.take kind.limit, 128 ≤ b.toNat := fun b hb => hmore b (List.mem_of_mem_take hb)
    rcases readLeb_cases kind buf with ⟨_,_,_,heq,hbs,_,_⟩ | ⟨_,_,heq,hleb,hshort,_,_⟩ | ⟨hmany,_,_⟩ | ⟨_,_,herr⟩
    · exact absurd hmore' (not_more hbs.leb hbs.short heq)
    · exact absurd hmore' (not_more hleb hshort heq)
    · exact absurd hlen (not_lt.mpr hmany)
    · exact herr

/-- What each answer says of the buffer. -/
theorem readLeb_outcome (kind : LebKind) (buf : List UInt8) :
    (∀ v rest, readLebAs kind buf = .ok (v, rest) ↔
      ∃ bs, buf = bs ++ rest ∧ kind.Encodes bs ∧ kind.toInt v = kind.value bs) ∧
    (readLebAs kind buf = .error tooLarge ↔
      ∃ bs rest, buf = bs ++ rest ∧ IsLeb bs ∧ bs.length ≤ kind.limit ∧ ¬ kind.Fits bs) ∧
    (readLebAs kind buf = .error tooLong ↔ kind.limit ≤ buf.length ∧ ∀ b ∈ buf.take kind.limit, 128 ≤ b.toNat) ∧
    (readLebAs kind buf = .error unexpectedEnd ↔ buf.length < kind.limit ∧ ∀ b ∈ buf, 128 ≤ b.toNat) :=
  ⟨fun _ _ => readLebAs_iff,readLebAs_tooLarge_iff,readLebAs_tooLong_iff,readLebAs_unexpectedEnd_iff⟩

theorem readLebUint32_iff {buf rest : List UInt8} {v : UInt32} :
    readLebUint32 buf = .ok (v, rest) ↔ ∃ bs, buf = bs ++ rest ∧ LebKind.uint32.Encodes bs ∧ v.toNat = unsigned bs := by
  have hread : readLebUint32 buf = .ok (v, rest) ↔ readLebAs .uint32 buf = .ok (v.toBitVec, rest) := by
    unfold readLebUint32
    cases readLebAs .uint32 buf with
    | error e => simp [bind,Except.bind]
    | ok r =>
      constructor
      · intro h
        obtain ⟨rfl,rfl⟩ := Prod.mk.inj (Except.ok.inj h)
        rfl
      · intro h
        obtain rfl := Except.ok.inj h
        rfl
  apply hread.trans
  apply readLebAs_iff.trans
  constructor
  · rintro ⟨bs,heq,hbs,hv⟩
    exact ⟨bs,heq,hbs,Int.ofNat.inj hv⟩
  · rintro ⟨bs,heq,hbs,hv⟩
    exact ⟨bs,heq,hbs,congrArg Nat.cast hv⟩

end Outcome

end WamrTest.Loader
