import WamrTest.Udf.Reference

/-!
# Building a user id

`_build_user_id` asks twice whether `user_id` is `NULL` where the reference asks whether it is
`"0"`, and prints into the `NULL` it has found.
-/

namespace WamrTest.Kernel

open Proto3

def text (s : CString) : Option (List UInt8) := s.map fun s => CString.chars (some s)

/-- The call returns the string the reference computes, and stores nothing outside a string. -/
def AgreesUserId (userId imeiId : CString) : Prop :=
  ∃ s, buildUserId userId imeiId = .ok (some s) ∧
    CString.chars (some s) = Reference.buildUserId (text userId) (text imeiId)

theorem decimal_eq_zero {n : UInt32} : decimal n = [48] ↔ n = 0 := by
  have hdigit : ∀ d : ℕ, d < 10 → UInt8.ofNat d.digitChar.toNat = 48 → d = 0 := by decide
  constructor
  · intro h
    have hlen : (Nat.toDigits 10 n.toNat).length ≤ 1 := by
      have := congrArg List.length h
      simp only [decimal,List.length_map,List.length_singleton] at this
      exact this.le
    have hlt : n.toNat < 10 := by
      simpa using (Nat.length_toDigits_le_iff (by decide) (by decide)).mp hlen
    rw [decimal,Nat.toDigits_of_lt_base hlt,List.map_singleton,List.singleton_inj] at h
    exact UInt32.toNat_inj.mp (hdigit _ hlt h)
  · intro h
    rw [h]
    rfl

private theorem hash_chars (s : List UInt8) : hash (CString.chars (some s)) = hash s := by
  rw [hash,hash,CString.chars,List.takeWhile_takeWhile]
  simp

private theorem missing_eq_zero (imeiId : CString) :
    Reference.buildUserId.missing (text imeiId) = [48] ↔
      imeiId.chars = [] ∨ ∃ imei, imeiId = some imei ∧ hash imei = 0 := by
  cases imeiId with
  | none => simp [text,Reference.buildUserId.missing,CString.chars]
  | some imei =>
    simp only [text,Option.map_some,Reference.buildUserId.missing,Option.some.injEq,
      exists_eq_left']
    by_cases h : CString.chars (some imei) = []
    · simp [h]
    · rw [if_pos h,decimal_eq_zero,hash_chars,or_iff_right h]

/-- The kernel computes the reference if and only if a `user_id` is there, other than `"0"` unless
the reference falls back to `"0"` as well, or neither string is there. -/
theorem buildUserId_agrees_iff (userId imeiId : CString) :
    AgreesUserId userId imeiId ↔
      match userId with
      | some _ => userId.chars ≠ [48] ∨ imeiId.chars = [] ∨ ∃ imei, imeiId = some imei ∧ hash imei = 0
      | none => imeiId = none := by
  cases userId with
  | none =>
    cases imeiId with
    | none => exact iff_of_true ⟨[48],rfl,rfl⟩ rfl
    | some imei =>
      apply iff_of_false _ (by simp)
      intro h
      obtain ⟨s,hs,-⟩ := h
      exact absurd hs (by simp [buildUserId,sprintf])
  | some user =>
    have hcall : buildUserId (some user) imeiId = .ok (some user) := rfl
    have hagrees : AgreesUserId (some user) imeiId ↔
        CString.chars (some user) = Reference.buildUserId (text (some user)) (text imeiId) := by
      simp [AgreesUserId,hcall]
    rw [hagrees]
    simp only [Reference.buildUserId,text,Option.map_some]
    by_cases h : CString.chars (some user) = [48]
    · rw [if_neg (not_not.mpr h),h,eq_comm,← missing_eq_zero]
      simp [text]
    · simp [h]

/-- With the user id `"0"` the answer is `"0"` and not the hash of the IMEI; without a user id the
hash is printed to `NULL`. -/
theorem buildUserId_disagrees :
    ¬ AgreesUserId (some [48]) (some [57, 52]) ∧ ¬ AgreesUserId none (some [57, 52]) ∧
      buildUserId none (some [57, 52]) = .error .nullString := by
  refine ⟨?_,?_,rfl⟩
  · intro h
    obtain ⟨s,hs,htext⟩ := h
    have hs : [48] = s := Option.some.inj (Except.ok.inj hs)
    subst hs
    exact absurd htext (by decide)
  · intro h
    obtain ⟨s,hs,-⟩ := h
    exact absurd hs (by simp [buildUserId,sprintf])

end WamrTest.Kernel
