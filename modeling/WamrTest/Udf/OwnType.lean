import WamrTest.Udf.Entry

/-!
# Packing a message as another type

`build_user_id` packs its `UserId` with `fib__pack`, and the drivers pack their `Spliter` request
with `user_id__pack`. The casts compile, the descriptor assertion of the pack function fails.
-/

namespace WamrTest

open ByteMemory MachineInt Proto3

def testSpliterPack (data : CString) : Except Fault (List UInt8) :=
  let input : Spliter := ⟨[data], []⟩
  userIdPack ⟨_, input.message⟩

private theorem userId_ne_fib : userIdDescriptor ≠ fibDescriptor := by
  simp [userIdDescriptor,fibDescriptor]

private theorem spliter_ne_userId : spliterDescriptor ≠ userIdDescriptor := by
  simp [spliterDescriptor,userIdDescriptor]

private theorem fibPack_userId (user : UserId) : fibPack ⟨_, user.message⟩ = .error .descriptorAssert :=
  packAs_other userId_ne_fib user.message

private theorem testSpliterPack_assert (data : CString) :
    testSpliterPack data = .error .descriptorAssert :=
  packAs_other spliter_ne_userId (Spliter.message ⟨[data], []⟩)

/-- No message passes the assertion; one with a `user_id` gets as far as it. -/
theorem buildUserIdBody_not_ok (m : Message userIdDescriptor) (response : List UInt8) :
    buildUserIdBody m ≠ .ok response := by
  intro h
  obtain ⟨userId,-,hpack⟩ := Fallible.bind_ok h
  rw [fibPack_userId] at hpack
  exact absurd hpack (by simp)

private theorem buildUserIdBody_assert {m : Message userIdDescriptor} {s : List UInt8}
    (h : (UserId.ofMessage m).userId = some s) :
    buildUserIdBody m = .error .descriptorAssert := by
  have hkernel : Kernel.buildUserId (some s) (UserId.ofMessage m).imeiId = .ok (some s) := rfl
  rw [buildUserIdBody,h,hkernel]
  exact fibPack_userId { UserId.ofMessage m with userId := some s }

private theorem buildUserId_not_ok {σ : Type} (lib : Unpacker σ) (g : Guest σ) (buf : Mem UInt8)
    (size ret : Int32) : (buildUserId lib g buf size).1 ≠ .ok ret := by
  rcases hu : lib.unpack userIdDescriptor (slice buf 0 (sizeT 32 size)) g.heap with ⟨answer,heap⟩
  rw [buildUserId]
  cases answer with
  | none => simp [serve_rejected hu]
  | some m =>
    cases hbody : buildUserIdBody m with
    | error fault => simp [serve_fault hu hbody]
    | ok response => exact absurd hbody (buildUserIdBody_not_ok m response)

/-- Every `UserId` request runs into the assertion of `fib__pack`, so that no run of
`build_user_id` ever returns, and every `Spliter` request of the drivers into the assertion of
`user_id__pack`. -/
theorem pack_as_another_type (m : UserId) (hk : m.unknownFields = []) {request : List UInt8}
    (hrequest : userIdPack ⟨_, m.message⟩ = .ok request) (hlen : request.length < 2 ^ 31)
    (g : Guest Unit) (buf : Mem UInt8) (hbuf : slice buf 0 request.length = request)
    (data : CString) :
    buildUserId wireFormat g buf (Int32.ofNat request.length) = (.error .descriptorAssert, g) ∧
      (∀ σ (lib : Unpacker σ) (g : Guest σ) buf size ret,
        (buildUserId lib g buf size).1 ≠ .ok ret) ∧
      testSpliterPack data = .error .descriptorAssert := by
  refine ⟨?_,fun _ lib g buf size ret => buildUserId_not_ok lib g buf size ret,
    testSpliterPack_assert data⟩
  have hpack : m.message.pack = request := Except.ok.inj ((packAs_own m.message).symm.trans hrequest)
  subst hpack
  have hunpack := unpack_userId hk (by omega)
  have hbody := buildUserIdBody_assert (m := UserId.message ⟨some m.userId.chars, some m.imeiId.chars, []⟩) rfl
  rw [buildUserId,sizeT_ofNat (by decide) hlen,hbuf]
  exact serve_fault (wireFormat_unpack hunpack g.heap) hbody

def testUserId : UserId :=
  ⟨some [50, 51, 49, 55, 50, 55, 51, 54, 55, 51, 55],
    some [57, 52, 51, 57, 48, 53, 50, 48, 54, 51, 53, 48, 57, 49], []⟩

theorem pack_as_another_type_fails :
    (¬ ∃ ret, (buildUserId wireFormat ⟨fun _ => 0, ()⟩ (ofList 0 testUserId.message.pack) 29).1 =
        .ok ret) ∧
      ¬ ∃ request, testSpliterPack (some [73, 32, 97, 109, 32, 97, 115, 98]) = .ok request := by
  refine ⟨?_,?_⟩
  · rintro ⟨ret,h⟩
    exact buildUserId_not_ok _ _ _ _ _ h
  · rintro ⟨request,h⟩
    rw [testSpliterPack_assert] at h
    exact absurd h (by simp)

theorem pack_as_another_type_sample :
    buildUserId wireFormat ⟨fun _ => 0, ()⟩ (ofList 0 testUserId.message.pack) 29 =
      (.error .descriptorAssert, ⟨fun _ => 0, ()⟩) :=
  (pack_as_another_type testUserId rfl (packAs_own _) (by decide) ⟨fun _ => 0, ()⟩
    (ofList 0 testUserId.message.pack) (slice_ofList _ _) none).1

end WamrTest
