import WamrTest.Udf.Entry
import WamrTest.Udf.Split

/-!
# Requests nobody checks

No entry point looks at the result of its unpack, and only `_point_polygen_distance` looks at a
number of elements. So a request that is not well formed is read through a `NULL` message, and a
`Spliter` request without strings through a `NULL` array.
-/

namespace WamrTest

open ByteMemory Fallible Proto3

/-- The request has none of the elements its entry point reads first. -/
def Request.Empty : (r : Request) → Message r.descriptor → Prop
  | .spliter _ _ _, m => (Spliter.ofMessage m).data = []
  | _, _ => False

/-- A fault that has nothing to do with a `NULL` message or array. -/
def Fault.Late (fault : Fault) : Prop := fault ≠ .nullMessage ∧ fault ≠ .nullArray

private theorem late_nullString : Fault.nullString.Late := ⟨by decide,by decide⟩

private theorem packAs_late {d : MessageDescriptor} {m : ProtobufCMessage} {fault : Fault}
    (h : packAs d m = .error fault) : fault.Late := by
  unfold packAs at h
  split at h
  · exact absurd h (by simp)
  · rw [← Except.error.inj h]
    exact ⟨by decide,by decide⟩

private theorem kernel_buildUserId_late {userId imeiId : CString} {fault : Fault}
    (h : Kernel.buildUserId userId imeiId = .error fault) : fault.Late := by
  unfold Kernel.buildUserId at h
  split at h
  · exact absurd h (by simp)
  · split at h
    · rw [← Except.error.inj h]
      exact late_nullString
    · exact absurd h (by simp)

private theorem kernel_spliter_late {data : List UInt8} {length : ℕ} {fault : Fault}
    (h : Kernel.spliter data length = .error fault) : fault.Late := by
  rw [Kernel.spliter_stops] at h
  rw [← Except.error.inj h]
  split
  · exact ⟨by decide,by decide⟩
  · exact late_nullString

private theorem strReverseBody_late {m : Message personDescriptor} {fault : Fault}
    (h : strReverseBody m = .error fault) : fault.Late := by
  unfold strReverseBody at h
  simp only at h
  split at h
  · rw [← Except.error.inj h]
    exact late_nullString
  · exact packAs_late h

private theorem fibBody_late {m : Message fibDescriptor} {fault : Fault} (h : fibBody m = .error fault) :
    fault.Late := by
  unfold fibBody at h
  exact packAs_late h

private theorem buildUserIdBody_late {m : Message userIdDescriptor} {fault : Fault}
    (h : buildUserIdBody m = .error fault) : fault.Late := by
  rcases bind_error h with h | ⟨userId,-,h⟩
  · exact kernel_buildUserId_late h
  · exact packAs_late h

private theorem spliterBody_empty {arrayLen : ℕ} {m : Message spliterDescriptor}
    (h : (Spliter.ofMessage m).data = []) : spliterBody arrayLen m = .error .nullArray := by
  simp only [spliterBody,h]
  rfl

private theorem spliterBody_late {arrayLen : ℕ} {m : Message spliterDescriptor} {fault : Fault}
    (hne : (Spliter.ofMessage m).data ≠ []) (h : spliterBody arrayLen m = .error fault) :
    fault.Late := by
  obtain ⟨first,rest,hdata⟩ := List.exists_cons_of_ne_nil hne
  have hfirst : Kernel.element (Spliter.ofMessage m).data 0 = .ok first := by
    rw [hdata]
    rfl
  rcases bind_error h with h | ⟨first',hfirst',h⟩
  · exact absurd (hfirst.symm.trans h) (by simp)
  · rw [Except.ok.inj (hfirst'.symm.trans hfirst)] at h
    cases first with
    | none =>
      rw [← Except.error.inj h]
      exact late_nullString
    | some s =>
      rcases bind_error h with h | ⟨res,hres,-⟩
      · exact kernel_spliter_late h
      · rw [Kernel.spliter_stops] at hres
        exact absurd hres (by simp)

section Requests

variable {σ : Type} [Add Double] [Sub Double] [Mul Double]

private theorem pointPolygenDistanceBody_late {m : Message pointPolygenDistanceDescriptor} {fault : Fault}
    (h : pointPolygenDistanceBody m = .error fault) : fault.Late := by
  rcases bind_error h with h | ⟨distance,-,h⟩
  · rw [Kernel.pointPolygenDistance_eq] at h
    exact absurd h (by simp)
  · exact packAs_late h

theorem Request.body_empty (r : Request) {m : Message r.descriptor} (h : r.Empty m) :
    r.body m = .error .nullArray := by
  cases r with
  | spliter buf size arrayLen => exact spliterBody_empty h
  | strReverse | fib | buildUserId | pointPolygenDistance => exact h.elim

theorem Request.body_late (r : Request) {m : Message r.descriptor} (hne : ¬ r.Empty m)
    {fault : Fault} (h : r.body m = .error fault) : fault.Late := by
  cases r with
  | strReverse buf size => exact strReverseBody_late h
  | fib buf size => exact fibBody_late h
  | buildUserId buf size => exact buildUserIdBody_late h
  | spliter buf size arrayLen => exact spliterBody_late hne h
  | pointPolygenDistance buf size => exact pointPolygenDistanceBody_late h

/-- For every library whose unpack returns `NULL` exactly on the byte strings that are not well
formed: a call reads through a `NULL` message exactly when its request is not well formed, and
reads an element of an empty array exactly when it is a well-formed `Spliter` request without
strings. A call that stops leaves `out` as it was. -/
theorem entry_null_dereference (lib : Unpacker σ) (wellFormed : MessageDescriptor → List UInt8 → Prop)
    (hnull : ∀ d bytes heap, (lib.unpack d bytes heap).1 = none ↔ ¬ wellFormed d bytes)
    (g : Guest σ) (r : Request) :
    ((r.run lib g).1 = .error .nullMessage ↔ ¬ wellFormed r.descriptor r.bytes) ∧
      ((r.run lib g).1 = .error .nullArray ↔
        ∃ m, (lib.unpack r.descriptor r.bytes g.heap).1 = some m ∧ r.Empty m) ∧
      ∀ fault, (r.run lib g).1 = .error fault → (r.run lib g).2.out = g.out := by
  rw [r.run_eq_serve,← hnull r.descriptor r.bytes g.heap]
  rcases hu : lib.unpack r.descriptor r.bytes g.heap with ⟨answer,heap⟩
  cases answer with
  | none => simp [serve_rejected hu]
  | some m =>
    by_cases hempty : r.Empty m
    · simp [serve_fault hu (r.body_empty hempty),hempty]
    · cases hbody : r.body m with
      | error fault =>
        obtain ⟨hmessage,harray⟩ := r.body_late hempty hbody
        simp [serve_fault hu hbody,hmessage,harray,hempty]
      | ok response => simp [serve_response hu hbody,hempty]

end Requests

/-- A truncated request of `str_reverse`, and the empty byte string as a request of `spliter`,
which is a well-formed message without strings. -/
theorem entry_null_dereferenced :
    let g : Guest Unit := ⟨fun _ => 0, ()⟩
    (strReverse wireFormat g (fun _ => 10) 1).1 = .error .nullMessage ∧
      (Proto3.unpack spliterDescriptor []).isSome ∧
      (spliter wireFormat g (fun _ => 0) 0 3).1 = .error .nullArray := by
  refine ⟨rfl,rfl,rfl⟩

theorem entry_null_dereference_sample :
    (@Request.run Unit ⟨Double.ieee (· + ·)⟩ ⟨Double.ieee (· - ·)⟩ ⟨Double.ieee (· * ·)⟩ wireFormat
      ⟨fun _ => 0, ()⟩ (.fib (fun _ => 8) 1)).1 = .error .nullMessage :=
  ((@entry_null_dereference Unit ⟨Double.ieee (· + ·)⟩ ⟨Double.ieee (· - ·)⟩ ⟨Double.ieee (· * ·)⟩
    wireFormat (fun d bytes => Proto3.unpack d bytes ≠ none) (fun _ _ _ => not_not.symm)
    ⟨fun _ => 0, ()⟩ (.fib (fun _ => 8) 1)).1).mpr (fun h => h rfl)

end WamrTest
