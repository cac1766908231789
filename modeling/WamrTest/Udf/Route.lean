import WamrTest.Udf.Entry

/-!
# The serialized route

What `str_reverse`, `fib` and `point_polygen_distance` answer to a packed request: the response is
the message they were sent with the kernel's result in it, and it unpacks to that message.
-/

namespace WamrTest

open ByteMemory MachineInt Proto3

/-- The call returns the number of bytes it wrote to `out`, and these are the response. -/
structure Responds {σ : Type} (g : Guest σ) (result : Except Fault Int32 × Guest σ)
    (response : List UInt8) : Prop where
  written : result.2.out = store g.out response
  returned : ∃ ret, result.1 = .ok ret ∧ ret.toInt = response.length ∧
    slice result.2.out 0 ret.toInt.toNat = response

theorem responds_serve {σ : Type} {lib : Unpacker σ} {d : MessageDescriptor}
    {body : Message d → Except Fault (List UInt8)} {g : Guest σ} {request response : List UInt8}
    {m : Message d} {heap : σ} (hlen : response.length < 2 ^ 31)
    (hunpack : lib.unpack d request g.heap = (some m, heap)) (hbody : body m = .ok response) :
    Responds g (serve lib d body g request) response := by
  have hret := toInt_ofNat_of_lt hlen
  rw [serve_response hunpack hbody]
  refine ⟨rfl,_,rfl,hret,?_⟩
  rw [hret,Int.toNat_natCast]
  exact slice_store g.out response

private theorem person_pack (m : Person) (hk : m.unknownFields = []) :
    m.message.pack =
      if m.name.chars = [] then [] else (FieldType.stringRecord 1 m.name).emit := by
  simp only [Message.pack,Person.message,hk,personDescriptor,Members.records,FieldType.records,
    List.append_nil]
  split
  · rfl
  · simp

theorem person_pack_length (m : Person) (hk : m.unknownFields = []) :
    m.message.pack.length =
      if m.name.chars = [] then 0 else 1 + (Wire.prefixed m.name.chars).length := by
  rw [person_pack m hk]
  split
  · rfl
  · exact Wire.Record.emit_length (by decide : 1 < 16)

private theorem person_pack_length_congr {m m' : Person} (hk : m.unknownFields = [])
    (hk' : m'.unknownFields = []) (h : m.name.chars.length = m'.name.chars.length) :
    m.message.pack.length = m'.message.pack.length := by
  have hnil : m.name.chars = [] ↔ m'.name.chars = [] := by
    rw [← List.length_eq_zero_iff,h,List.length_eq_zero_iff]
  rw [person_pack_length m hk,person_pack_length m' hk',Wire.prefixed_length,Wire.prefixed_length,h]
  exact if_congr hnil rfl rfl

private theorem length_chars_le (m : Person) (hk : m.unknownFields = []) :
    m.name.chars.length ≤ m.message.pack.length := by
  rw [person_pack_length m hk,Wire.prefixed_length]
  split
  · rename_i h
    rw [h]
    rfl
  · omega

/-- Packing stops at the first `NUL` of a name. -/
theorem person_pack_congr {m m' : Person} (hk : m.unknownFields = []) (hk' : m'.unknownFields = [])
    (h : m.name.chars = m'.name.chars) : m.message.pack = m'.message.pack := by
  rw [person_pack m hk,person_pack m' hk',FieldType.stringRecord,FieldType.stringRecord,h]

theorem strReverseBody_chars {name : List UInt8} (hlen : name.length < 2 ^ 31) :
    strReverseBody (Person.message ⟨some name, []⟩) =
      .ok (Person.message ⟨some (CString.chars (some name)).reverse, []⟩).pack := by
  obtain ⟨rest,hrest⟩ : ∃ rest, rest = name.dropWhile (· ≠ 0) := ⟨_,rfl⟩
  have hsplit : CString.chars (some name) ++ rest = name := by
    rw [hrest]
    exact List.takeWhile_append_dropWhile
  have hzero := CString.not_mem_chars (some name)
  have hn : (CString.chars (some name)).length ≤ name.length := (List.takeWhile_sublist _).length_le
  have htake : name.take (CString.chars (some name)).length = CString.chars (some name) := by
    exact (List.prefix_iff_eq_take.mp (List.takeWhile_prefix _)).symm
  have hdrop := congrArg (List.drop (CString.chars (some name)).length) hsplit
  rw [List.drop_left] at hdrop
  have hstop : rest.takeWhile (· ≠ 0) = [] := by
    rw [hrest,List.takeWhile_eq_nil_iff]
    intro hpos
    have hhead := List.dropWhile_get_zero_not (· ≠ 0) name hpos
    simpa using hhead
  have hslice := Kernel.slice_strReverse hn (hn.trans_lt hlen)
  rw [htake,← hdrop] at hslice
  simp only [strReverseBody,Person.ofMessage_message,strlen,hslice]
  refine (packAs_own _).trans (congrArg Except.ok (person_pack_congr rfl rfl ?_))
  have hreverse : ∀ b ∈ (CString.chars (some name)).reverse, decide (b ≠ 0) = true := by
    intro b hb
    rw [List.mem_reverse] at hb
    rw [decide_eq_true_eq]
    rintro rfl
    exact hzero hb
  rw [CString.chars,List.takeWhile_append_of_pos hreverse,hstop,List.append_nil]
  exact (CString.chars_of_not_mem (by rwa [List.mem_reverse])).symm

private theorem strReverseBody_eq {name : List UInt8} (hname : 0 ∉ name) (hlen : name.length < 2 ^ 31) :
    strReverseBody (Person.message ⟨some name, []⟩) =
      .ok (Person.message ⟨some name.reverse, []⟩).pack := by
  rw [strReverseBody_chars hlen,CString.chars_of_not_mem hname]

private theorem fibBody_eq (m : Fib) :
    fibBody m.message = .ok { m with num := Kernel.fib m.num : Fib }.message.pack :=
  packAs_own { m with num := Kernel.fib m.num : Fib }.message

theorem fib_pack_length_le (m : Fib) (hk : m.unknownFields = []) : m.message.pack.length ≤ 11 := by
  have hle := Encoding.varint_length_le 10 (FieldType.extend m.num)
  simp only [Message.pack,Fib.message,hk,fibDescriptor,Members.records,FieldType.records,
    List.append_nil]
  split
  · simp
  · rw [Wire.emitAll_cons,Wire.emitAll_nil,List.append_nil,Wire.Record.emit_length (by decide : 1 < 16)]
    change 1 + (Encoding.varint 10 (FieldType.extend m.num)).length ≤ 11
    omega

section Distance

variable [Add Double] [Sub Double] [Mul Double]

def distanceOf (point1 point2 : List Double) : Double :=
  if point1.length = point2.length then Kernel.squaredDistance point1 point2 else 0

private theorem pointPolygenDistanceBody_eq (m : PointPolygenDistance) :
    pointPolygenDistanceBody m.message =
      .ok { m with distance := distanceOf m.point1 m.point2 : PointPolygenDistance }.message.pack := by
  have hkernel := Kernel.pointPolygenDistance_eq m.point1 m.point2
  simp only [pointPolygenDistanceBody,PointPolygenDistance.ofMessage_message,hkernel]
  exact packAs_own { m with distance := distanceOf m.point1 m.point2 : PointPolygenDistance }.message

end Distance

/-- The bytes of a packed list of doubles as a field. -/
def packedSize (vs : List Double) : ℕ :=
  if vs = [] then 0 else 1 + (Encoding.varint 5 (8 * vs.length)).length + 8 * vs.length

private theorem emitAll_packed (id : ℕ) (hid : id < 16) (vs : List Double) :
    (Wire.emitAll (FieldType.records id .packedDouble vs)).length = packedSize vs := by
  simp only [FieldType.records,packedSize]
  split
  · rfl
  · rw [Wire.emitAll_cons,Wire.emitAll_nil,List.append_nil,Wire.Record.emit_length hid,
      Wire.prefixed_length,FieldType.packDoubles_length,Nat.add_assoc]

def pointSize (point1 point2 : List Double) (distance : Double) : ℕ :=
  packedSize point1 + packedSize point2 + if distance = 0 then 0 else 9

private theorem pointSize_le (point1 point2 : List Double) (distance distance' : Double) :
    pointSize point1 point2 distance ≤ pointSize point1 point2 distance' + 9 := by
  unfold pointSize
  split <;> split <;> omega

theorem point_pack_length (m : PointPolygenDistance) (hk : m.unknownFields = []) :
    m.message.pack.length = pointSize m.point1 m.point2 m.distance := by
  have h1 := emitAll_packed 1 (by decide) m.point1
  have h2 := emitAll_packed 2 (by decide) m.point2
  simp only [Message.pack,PointPolygenDistance.message,hk,pointPolygenDistanceDescriptor,
    Members.records,List.append_nil,Wire.emitAll_append,List.length_append,h1,h2,pointSize,
    Nat.add_assoc]
  congr 2
  simp only [FieldType.records]
  split
  · rfl
  · rw [Wire.emitAll_cons,Wire.emitAll_nil,List.append_nil,Wire.Record.emit_length (by decide : 3 < 16),
      FieldType.packDouble_length]

section Requests

variable (g : Guest Unit) (buf : Mem UInt8)

theorem strReverse_responds (m : Person) (hk : m.unknownFields = [])
    (hlen : m.message.pack.length < 2 ^ 31)
    (hbuf : slice buf 0 m.message.pack.length = m.message.pack) :
    let response := (Person.message ⟨some m.name.chars.reverse, []⟩).pack
    Responds g (strReverse wireFormat g buf (Int32.ofNat m.message.pack.length)) response ∧
      response.length = m.message.pack.length := by
  intro response
  have hname := m.name.not_mem_chars
  have hreverse : 0 ∉ m.name.chars.reverse := by rwa [List.mem_reverse]
  have hsize : response.length = m.message.pack.length := by
    apply person_pack_length_congr rfl hk
    rw [CString.chars_of_not_mem hreverse,List.length_reverse]
  have hchars := length_chars_le m hk
  have hbody := strReverseBody_eq hname (by omega)
  have hunpack := wireFormat_unpack (unpack_person hk (by omega)) g.heap
  rw [strReverse,sizeT_ofNat (by decide) hlen,hbuf]
  exact ⟨responds_serve (hsize.trans_lt hlen) hunpack hbody,hsize⟩

theorem fib_responds (m : Fib) (hk : m.unknownFields = [])
    (hbuf : slice buf 0 m.message.pack.length = m.message.pack) :
    Responds g (fib wireFormat g buf (Int32.ofNat m.message.pack.length))
      { m with num := Kernel.fib m.num : Fib }.message.pack := by
  have hlen := fib_pack_length_le m hk
  have hlen' := fib_pack_length_le { m with num := Kernel.fib m.num } hk
  have hunpack := wireFormat_unpack (unpack_fib hk (by omega)) g.heap
  rw [fib,sizeT_ofNat (by decide) (by omega),hbuf]
  exact responds_serve (by omega) hunpack (fibBody_eq m)

variable [Add Double] [Sub Double] [Mul Double]

theorem pointPolygenDistance_responds (m : PointPolygenDistance) (hk : m.unknownFields = [])
    (hlen : m.message.pack.length + 9 < 2 ^ 31)
    (hbuf : slice buf 0 m.message.pack.length = m.message.pack) :
    let m' := { m with distance := distanceOf m.point1 m.point2 : PointPolygenDistance }
    Responds g (pointPolygenDistance wireFormat g buf (UInt32.ofNat m.message.pack.length))
        m'.message.pack ∧ m'.message.pack.length ≤ m.message.pack.length + 9 := by
  intro m'
  have hsize : m'.message.pack.length ≤ m.message.pack.length + 9 := by
    rw [point_pack_length m hk,point_pack_length m' hk]
    exact pointSize_le m.point1 m.point2 _ m.distance
  have hunpack := wireFormat_unpack (unpack_pointPolygenDistance hk (by omega)) g.heap
  have hnat : (UInt32.ofNat m.message.pack.length).toNat = m.message.pack.length := by
    rw [UInt32.toNat_ofNat']
    omega
  rw [pointPolygenDistance,hnat,hbuf]
  exact ⟨responds_serve (by omega) hunpack (pointPolygenDistanceBody_eq m),hsize⟩

/-- Packing a request, running its entry point and unpacking what it returned agrees with the
kernel, for every `NUL`-free name, every number and every two lists of doubles whose packed size
is an `int`. -/
theorem serialized_route :
    (∀ (name request : List UInt8), 0 ∉ name →
      personPack ⟨_, (Person.message ⟨some name, []⟩)⟩ = .ok request → request.length < 2 ^ 31 →
      slice buf 0 request.length = request →
      ∃ response, Responds g (strReverse wireFormat g buf (Int32.ofNat request.length)) response ∧
        response.length = request.length ∧
        unpack personDescriptor response = some (Person.message ⟨some name.reverse, []⟩)) ∧
      (∀ (num : Int32) (request : List UInt8), fibPack ⟨_, (Fib.message ⟨num, []⟩)⟩ = .ok request →
        slice buf 0 request.length = request →
        ∃ response, Responds g (fib wireFormat g buf (Int32.ofNat request.length)) response ∧
          unpack fibDescriptor response = some (Fib.message ⟨Kernel.fib num, []⟩)) ∧
      ∀ (point1 point2 : List Double) (distance : Double) (request : List UInt8),
        pointPolygenDistancePack ⟨_, (PointPolygenDistance.message ⟨point1, point2, distance, []⟩)⟩ =
          .ok request → request.length + 9 < 2 ^ 31 → slice buf 0 request.length = request →
        ∃ response distance', Responds g
            (pointPolygenDistance wireFormat g buf (UInt32.ofNat request.length)) response ∧
          Kernel.pointPolygenDistance point1 point2 point1.length point2.length = .ok distance' ∧
          unpack pointPolygenDistanceDescriptor response =
            some (PointPolygenDistance.message ⟨point1, point2, distance', []⟩) := by
  refine ⟨?_,?_,?_⟩
  · intro name request hname hpack hlen hbuf
    obtain rfl := Except.ok.inj ((packAs_own _).symm.trans hpack)
    obtain ⟨hresponds,hsize⟩ := strReverse_responds g buf ⟨some name, []⟩ rfl hlen hbuf
    rw [CString.chars_of_not_mem hname] at hresponds hsize
    have hreverse : 0 ∉ name.reverse := by rwa [List.mem_reverse]
    refine ⟨_,hresponds,hsize,?_⟩
    rw [unpack_person rfl (by omega),CString.chars_of_not_mem hreverse]
  · intro num request hpack hbuf
    obtain rfl := Except.ok.inj ((packAs_own _).symm.trans hpack)
    have hlen := fib_pack_length_le ⟨Kernel.fib num, []⟩ rfl
    exact ⟨_,fib_responds g buf ⟨num, []⟩ rfl hbuf,unpack_fib rfl (hlen.trans_lt (by decide))⟩
  · intro point1 point2 distance request hpack hlen hbuf
    obtain rfl := Except.ok.inj ((packAs_own _).symm.trans hpack)
    obtain ⟨hresponds,hsize⟩ :=
      pointPolygenDistance_responds g buf ⟨point1, point2, distance, []⟩ rfl hlen hbuf
    exact ⟨_,_,hresponds,Kernel.pointPolygenDistance_eq point1 point2,
      unpack_pointPolygenDistance rfl (by omega)⟩

end Requests

theorem serialized_route_sample :
    let g : Guest Unit := ⟨fun _ => 0, ()⟩
    let _ : Add Double := ⟨Double.ieee (· + ·)⟩
    let _ : Sub Double := ⟨Double.ieee (· - ·)⟩
    let _ : Mul Double := ⟨Double.ieee (· * ·)⟩
    let point : List UInt8 := [10, 16, 0, 0, 0, 0, 0, 0, 0xf0, 0x3f, 0, 0, 0, 0, 0, 0, 0, 0x40,
      18, 16, 0, 0, 0, 0, 0, 0, 8, 0x40, 0, 0, 0, 0, 0, 0, 0x10, 0x40]
    (∃ response, Responds g (strReverse wireFormat g (ofList 0 [10, 2, 97, 98]) 4) response ∧
        unpack personDescriptor response = some (Person.message ⟨some [98, 97], []⟩)) ∧
      (∃ response, Responds g (fib wireFormat g (ofList 0 [8, 1]) 2) response ∧
        unpack fibDescriptor response = some (Fib.message ⟨Kernel.fib 1, []⟩)) ∧
      ∃ response, Responds g (pointPolygenDistance wireFormat g (ofList 0 point) 36) response := by
  intro g _ _ _ point
  refine ⟨?_,?_,?_⟩
  · obtain ⟨response,hresponds,-,hunpack⟩ := (serialized_route g (ofList 0 [10, 2, 97, 98])).1
      [97, 98] [10, 2, 97, 98] (by decide) rfl (by decide) (slice_ofList _ _)
    exact ⟨response,hresponds,hunpack⟩
  · exact (serialized_route g (ofList 0 [8, 1])).2.1 1 [8, 1] rfl (slice_ofList _ _)
  · obtain ⟨response,-,hresponds,-⟩ := (serialized_route g (ofList 0 point)).2.2
      [⟨0x3ff0000000000000⟩, ⟨0x4000000000000000⟩] [⟨0x4008000000000000⟩, ⟨0x4010000000000000⟩] 0 point rfl
      (by decide) (slice_ofList _ _)
    exact ⟨response,hresponds⟩

end WamrTest
