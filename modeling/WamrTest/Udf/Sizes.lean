import WamrTest.Ring.Host
import WamrTest.Udf.Route

/-!
# Responses fit the response buffer

A response of `point_polygen_distance` may be nine bytes longer than its request. Only points with
equally many coordinates have a distance to add, and two equal lists that fit `BUFF_MAX_LEN` leave
room for it.
-/

namespace WamrTest

open ByteMemory Encoding Proto3

private theorem packedSize_lower (vs : List Double) : 8 * vs.length + 2 ≤ packedSize vs ∨ vs = [] := by
  by_cases h : vs = []
  · exact .inr h
  · have hpos := varint_length_pos (by decide : 0 < 5) (8 * vs.length)
    rw [packedSize,if_neg h]
    exact .inl (by omega)

private theorem packedSize_upper (vs : List Double) (h : 8 * vs.length < 128 ^ 2) :
    packedSize vs ≤ 8 * vs.length + 3 := by
  have hlen : (varint 5 (8 * vs.length)).length ≤ 2 := varint_length_le_of_lt (n := 1) h 5
  unfold packedSize
  split
  · omega
  · omega

/-- Two lists of one length whose fields fit the buffer leave nine bytes of it. -/
theorem packedSize_twice {vs vs' : List Double} (hlen : vs.length = vs'.length)
    (h : packedSize vs + packedSize vs' ≤ buffMaxLen) :
    packedSize vs + packedSize vs' + 9 ≤ buffMaxLen := by
  unfold buffMaxLen at *
  rcases packedSize_lower vs with hlow | rfl
  · rcases packedSize_lower vs' with hlow' | rfl
    · -- at most 511 coordinates each
      have hfit : 8 * vs.length ≤ 4088 := by omega
      have hup := packedSize_upper vs (by omega)
      have hup' := packedSize_upper vs' (by omega)
      omega
    · rw [List.length_nil,List.length_eq_zero_iff] at hlen
      subst hlen
      decide
  · have hnil : vs' = [] := List.length_eq_zero_iff.mp hlen.symm
    subst hnil
    decide

section Requests

variable [Add Double] [Sub Double] [Mul Double]

private theorem pointSize_distanceOf {point1 point2 : List Double} {distance : Double}
    (h : pointSize point1 point2 distance ≤ buffMaxLen) :
    pointSize point1 point2 (distanceOf point1 point2) ≤ buffMaxLen := by
  unfold pointSize distanceOf at *
  by_cases hlen : point1.length = point2.length
  · have htwice := packedSize_twice hlen (by omega)
    rw [if_pos hlen]
    split <;> omega
  · rw [if_neg hlen,if_pos rfl]
    omega

variable (g : Guest Unit) (buf : Mem UInt8)

/-- Every `Person`, `Fib` and `PointPolygenDistance` message that fits the request buffer is
answered with a response that fits the response buffer. -/
theorem responses_fit :
    (∀ m : Person, m.unknownFields = [] → m.message.pack.length ≤ buffMaxLen →
      slice buf 0 m.message.pack.length = m.message.pack →
      ∃ response, Responds g (strReverse wireFormat g buf (Int32.ofNat m.message.pack.length))
        response ∧ response.length ≤ buffMaxLen) ∧
      (∀ m : Fib, m.unknownFields = [] → m.message.pack.length ≤ buffMaxLen →
        slice buf 0 m.message.pack.length = m.message.pack →
        ∃ response, Responds g (fib wireFormat g buf (Int32.ofNat m.message.pack.length))
          response ∧ response.length ≤ buffMaxLen) ∧
      ∀ m : PointPolygenDistance, m.unknownFields = [] → m.message.pack.length ≤ buffMaxLen →
        slice buf 0 m.message.pack.length = m.message.pack →
        ∃ response, Responds g
            (pointPolygenDistance wireFormat g buf (UInt32.ofNat m.message.pack.length)) response ∧
          response.length ≤ buffMaxLen := by
  have hint : buffMaxLen + 9 < 2 ^ 31 := by decide
  refine ⟨?_,?_,?_⟩
  · intro m hk hlen hbuf
    obtain ⟨hresponds,hsize⟩ := strReverse_responds g buf m hk (by omega) hbuf
    exact ⟨_,hresponds,hsize.trans_le hlen⟩
  · intro m hk hlen hbuf
    have hsize := fib_pack_length_le { m with num := Kernel.fib m.num } hk
    exact ⟨_,fib_responds g buf m hk hbuf,hsize.trans (by decide)⟩
  · intro m hk hlen hbuf
    obtain ⟨hresponds,-⟩ := pointPolygenDistance_responds g buf m hk (by omega) hbuf
    rw [point_pack_length m hk] at hlen
    have hsize := point_pack_length { m with distance := distanceOf m.point1 m.point2 } hk
    exact ⟨_,hresponds,hsize.trans_le (pointSize_distanceOf hlen)⟩

end Requests

theorem responses_fit_sample :
    let g : Guest Unit := ⟨fun _ => 0, ()⟩
    let _ : Add Double := ⟨Double.ieee (· + ·)⟩
    let _ : Sub Double := ⟨Double.ieee (· - ·)⟩
    let _ : Mul Double := ⟨Double.ieee (· * ·)⟩
    let per : Person := ⟨some [97, 98], []⟩
    let p : Fib := ⟨1, []⟩
    let point : PointPolygenDistance := ⟨[⟨0x3ff0000000000000⟩, ⟨0x4000000000000000⟩],
      [⟨0x4008000000000000⟩, ⟨0x4010000000000000⟩], 0, []⟩
    (∃ response, Responds g (strReverse wireFormat g (ofList 0 per.message.pack) 4) response ∧
        response.length ≤ buffMaxLen) ∧
      (∃ response, Responds g (fib wireFormat g (ofList 0 p.message.pack) 2) response ∧
        response.length ≤ buffMaxLen) ∧
      ∃ response, Responds g (pointPolygenDistance wireFormat g (ofList 0 point.message.pack) 36)
        response ∧ response.length ≤ buffMaxLen := by
  intro g _ _ _ per p point
  refine ⟨?_,?_,?_⟩
  · exact (responses_fit g _).1 per rfl (by decide) (slice_ofList _ _)
  · exact (responses_fit g _).2.1 p rfl (by decide) (slice_ofList _ _)
  · exact (responses_fit g _).2.2 point rfl (by decide) (slice_ofList _ _)

end WamrTest
