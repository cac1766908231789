import WamrTest.Loader.Leb

/-!
# The interpreter's `read_leb`

It checks nothing, and reads a number of one byte without the loop. On everything that the loader has
accepted it reads what the loader has read.
-/

namespace WamrTest.Interp

open Leb128 Loader

/-- The loop, of a buffer that is not read past its end. -/
def readLebLoop (result : UInt64) (shift : ℕ) : List UInt8 → Option (UInt64 × ℕ × UInt8 × List UInt8)
  | [] => none
  | byte::buf =>
    let result := result ||| ((byte.toUInt64 &&& 0x7f) <<< UInt64.ofNat shift)
    if byte &&& 0x80 = 0 then some (result, shift + 7, byte, buf) else readLebLoop result (shift + 7) buf

def readLeb (maxbits : ℕ) (sign : Bool) (buf : List UInt8) : Option (UInt64 × List UInt8) := do
  let (result, shift, byte, rest) ← readLebLoop 0 0 buf
  some (if sign ∧ shift < maxbits ∧ byte &&& 0x40 ≠ 0 then result ||| (~~~0 <<< UInt64.ofNat shift) else result, rest)

/-- What a negative byte is extended with. -/
def signBits : (kind : LebKind) → BitVec kind.maxbits
  | .uint32 => 0#32
  | .int32 => 0xffffff80#32
  | .int64 => 0xffffffffffffff80#64

/-- The macros over `read_leb`. -/
def readLebAs (kind : LebKind) : List UInt8 → Option (BitVec kind.maxbits × List UInt8)
  | [] => none
  | val::p =>
    if val &&& 0x80 = 0 then
      let res := val.toBitVec.setWidth kind.maxbits
      some (if val &&& 0x40 ≠ 0 then res ||| signBits kind else res, p)
    else (readLeb kind.maxbits kind.sign (val::p)).map fun (res64, rest) => (res64.toBitVec.setWidth kind.maxbits, rest)

def readLebUint32 (buf : List UInt8) : Option (UInt32 × List UInt8) :=
  (readLebAs .uint32 buf).map fun (res, rest) => (⟨res⟩, rest)

def skipLeb : List UInt8 → Option (List UInt8)
  | [] => none
  | byte::p => if byte &&& 0x80 ≠ 0 then skipLeb p else some p

section Agreement

variable {kind : LebKind} {bs buf rest : List UInt8}

theorem skipLeb_append (h : IsLeb bs) (rest : List UInt8) : skipLeb (bs ++ rest) = some rest := by
  induction h with
  | @last b hb =>
    have hend := (byte_bits b).1.mpr hb
    simp only [List.singleton_append,skipLeb,hend,ne_eq,not_true_eq_false,if_false]
  | @more b bs hb _ ih =>
    have hcont := mt (byte_bits b).1.mp (not_lt.mpr hb)
    rw [List.cons_append,skipLeb,if_pos hcont,ih]

private theorem readLebLoop_of_loader {maxbits bcnt : ℕ} {result : UInt64} {r : UInt64 × ℕ × UInt8 × List UInt8}
    (h : Loader.readLebLoop maxbits result bcnt buf = .ok r) :
    readLebLoop result (7 * bcnt) buf = some (r.1, 7 * r.2.1, r.2.2) := by
  induction buf generalizing result bcnt with
  | nil =>
    rw [Loader.readLebLoop] at h
    split at h <;> exact absurd h (by simp)
  | cons b buf ih =>
    rw [Loader.readLebLoop] at h
    rw [readLebLoop]
    split at h
    next => exact absurd h (by simp)
    next =>
      simp only at h ⊢
      split at h
      next hend =>
        obtain rfl := Except.ok.inj h
        rw [if_pos hend,Nat.mul_succ]
      next hcont =>
        rw [if_neg hcont,← Nat.mul_succ]
        exact ih h

private theorem extend_of_loader {maxbits bcnt : ℕ} {result res : UInt64} {byte : UInt8} {rest' : List UInt8}
    {bad : Prop}
    [Decidable bad] (h : (if 7 * bcnt < maxbits then
        Except.ok (if byte &&& 0x40 ≠ 0 then result ||| (~~~0 <<< UInt64.ofNat (7 * bcnt)) else result, rest')
      else if bad then .error tooLarge else .ok (result, rest')) = .ok (res, rest)) :
    (if true ∧ 7 * bcnt < maxbits ∧ byte &&& 0x40 ≠ 0 then result ||| (~~~0 <<< UInt64.ofNat (7 * bcnt)) else result,
      rest') = (res, rest) := by
  by_cases hfew : 7 * bcnt < maxbits
  · rw [if_pos hfew] at h
    rw [← Except.ok.inj h]
    simp [hfew]
  · rw [if_neg hfew] at h
    split at h
    next => exact absurd h (by simp)
    next =>
      rw [← Except.ok.inj h]
      simp [hfew]

/-- A number is extended by the one if and only if it is by the other. -/
theorem readLeb_of_loader {res : UInt64} (h : Loader.readLeb kind.maxbits kind.sign buf = .ok (res, rest)) :
    readLeb kind.maxbits kind.sign buf = some (res, rest) := by
  obtain ⟨⟨result,bcnt,byte,rest'⟩,hloop,h⟩ := Fallible.bind_ok h
  have hsame := readLebLoop_of_loader hloop
  rw [Nat.mul_zero] at hsame
  unfold readLeb
  rw [hsame]
  cases kind with
  | uint32 =>
    simp only [LebKind.sign,LebKind.maxbits,Bool.false_eq_true,not_false_eq_true,true_and,false_and,if_false] at h ⊢
    split at h
    next =>
      split at h
      next => exact absurd h (by simp)
      next =>
        obtain ⟨rfl,rfl⟩ := Prod.mk.inj (Except.ok.inj h)
        rfl
    next =>
      obtain ⟨rfl,rfl⟩ := Prod.mk.inj (Except.ok.inj h)
      rfl
  | int32 => exact congrArg some (extend_of_loader h)
  | int64 => exact congrArg some (extend_of_loader h)

private theorem toInt_byte (kind : LebKind) {b : UInt8} (h : b.toNat < 128) :
    let res := b.toBitVec.setWidth kind.maxbits
    kind.toInt (if b &&& 0x40 ≠ 0 then res ||| signBits kind else res) = kind.value [b] := by
  have hall : ∀ k : Fin 256, k.val < 128 → let b := UInt8.ofFin k; let res := b.toBitVec.setWidth kind.maxbits
      kind.toInt (if b &&& 0x40 ≠ 0 then res ||| signBits kind else res) = kind.value [b] := by
    cases kind <;> decide +kernel
  exact hall b.toFin h

/-- What the loader has read of a buffer, the interpreter reads and `skip_leb` skips. -/
theorem readLeb_agrees (kind : LebKind) {buf rest : List UInt8} {v : BitVec kind.maxbits}
    (h : Loader.readLebAs kind buf = .ok (v, rest)) :
    readLebAs kind buf = some (v, rest) ∧ skipLeb buf = some rest := by
  obtain ⟨bs,rfl,hbs,hv⟩ := readLebAs_iff.mp h
  refine ⟨?_,skipLeb_append hbs.leb rest⟩
  cases hbs.leb with
  | @last b hb =>
    have hend := (byte_bits b).1.mpr hb
    have hbyte := toInt_byte kind hb
    simp only at hbyte
    rw [← hv] at hbyte
    rw [List.singleton_append,readLebAs,if_pos hend]
    simp only [LebKind.toInt_injective hbyte]
  | @more b bs hb hmore =>
    have hcont := mt (byte_bits b).1.mp (not_lt.mpr hb)
    obtain ⟨⟨res64,rest'⟩,hread,h⟩ := Fallible.bind_ok h
    obtain ⟨rfl,rfl⟩ := Prod.mk.inj (Except.ok.inj h)
    have hsame := readLeb_of_loader hread
    rw [List.cons_append] at hsame ⊢
    rw [readLebAs,if_neg hcont,hsame,Option.map_some]

theorem readLebUint32_of_loader {v : UInt32} (h : Loader.readLebUint32 buf = .ok (v, rest)) :
    readLebUint32 buf = some (v, rest) := by
  obtain ⟨⟨v',rest'⟩,hread,h⟩ := Fallible.bind_ok h
  obtain ⟨rfl,rfl⟩ := Prod.mk.inj (Except.ok.inj h)
  rw [readLebUint32,(readLeb_agrees .uint32 hread).1]
  rfl

end Agreement

end WamrTest.Interp
