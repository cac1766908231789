import WamrTest.Framework.Proto3

/-!
# The generated messages

The five messages of `struct.proto` with the descriptors and the pack and unpack families of
`struct.pb-c.c`. A message carries its own descriptor: every generated pack function asserts
that it is the one it was generated for, and the library then packs by the descriptor it finds.
-/

namespace WamrTest

open Wire Proto3

/-- What stops a call: a member read through a `NULL` message, an element read of an array that
is `NULL` or has none there, a `NULL` or unwritten string, a string written past its storage, a slot
written behind an array or read after its function has returned, a failed descriptor assertion. -/
inductive Fault
  | nullMessage
  | nullArray
  | nullString
  | uninitialized
  | overflow
  | outOfBounds
  | deadArray
  | descriptorAssert
deriving DecidableEq

def personDescriptor : MessageDescriptor := ⟨"Person", [⟨"name", 1, .string⟩]⟩

def fibDescriptor : MessageDescriptor := ⟨"Fib", [⟨"num", 1, .int32⟩]⟩

def userIdDescriptor : MessageDescriptor :=
  ⟨"UserId", [⟨"user_id", 1, .string⟩, ⟨"imei_id", 2, .string⟩]⟩

def spliterDescriptor : MessageDescriptor := ⟨"Spliter", [⟨"data", 1, .repeatedString⟩]⟩

def pointPolygenDistanceDescriptor : MessageDescriptor :=
  ⟨"PointPolygenDistance",
    [⟨"point1", 1, .packedDouble⟩, ⟨"point2", 2, .packedDouble⟩, ⟨"distance", 3, .double⟩]⟩

/-- What a `ProtobufCMessage*` points to: a message under the descriptor stored in it. -/
abbrev ProtobufCMessage := (descriptor : MessageDescriptor) × Message descriptor

structure Person where
  name : CString
  unknownFields : List Record

structure Fib where
  num : Int32
  unknownFields : List Record

structure UserId where
  userId : CString
  imeiId : CString
  unknownFields : List Record

structure Spliter where
  data : List CString
  unknownFields : List Record

structure PointPolygenDistance where
  point1 : List Double
  point2 : List Double
  distance : Double
  unknownFields : List Record

def Person.message (m : Person) : Message personDescriptor := ⟨(m.name, ()), m.unknownFields⟩

def Fib.message (m : Fib) : Message fibDescriptor := ⟨(m.num, ()), m.unknownFields⟩

def UserId.message (m : UserId) : Message userIdDescriptor :=
  ⟨(m.userId, m.imeiId, ()), m.unknownFields⟩

def Spliter.message (m : Spliter) : Message spliterDescriptor := ⟨(m.data, ()), m.unknownFields⟩

def PointPolygenDistance.message (m : PointPolygenDistance) :
    Message pointPolygenDistanceDescriptor :=
  ⟨(m.point1, m.point2, m.distance, ()), m.unknownFields⟩

def Person.ofMessage (m : Message personDescriptor) : Person := ⟨m.members.1, m.unknownFields⟩

def Fib.ofMessage (m : Message fibDescriptor) : Fib := ⟨m.members.1, m.unknownFields⟩

def UserId.ofMessage (m : Message userIdDescriptor) : UserId :=
  ⟨m.members.1, m.members.2.1, m.unknownFields⟩

def Spliter.ofMessage (m : Message spliterDescriptor) : Spliter := ⟨m.members.1, m.unknownFields⟩

def PointPolygenDistance.ofMessage (m : Message pointPolygenDistanceDescriptor) :
    PointPolygenDistance :=
  ⟨m.members.1, m.members.2.1, m.members.2.2.1, m.unknownFields⟩

/-- The descriptor assertion and the library call every generated `__pack` consists of. -/
def packAs (descriptor : MessageDescriptor) (m : ProtobufCMessage) : Except Fault (List UInt8) :=
  if m.1 = descriptor then .ok m.2.pack else .error .descriptorAssert

def personPack : ProtobufCMessage → Except Fault (List UInt8) := packAs personDescriptor

def fibPack : ProtobufCMessage → Except Fault (List UInt8) := packAs fibDescriptor

def userIdPack : ProtobufCMessage → Except Fault (List UInt8) := packAs userIdDescriptor

def spliterPack : ProtobufCMessage → Except Fault (List UInt8) := packAs spliterDescriptor

def pointPolygenDistancePack : ProtobufCMessage → Except Fault (List UInt8) :=
  packAs pointPolygenDistanceDescriptor

/-- The library's unpack; `σ` is what it works on besides the bytes, such as the heap. -/
structure Unpacker (σ : Type) where
  unpack : (d : MessageDescriptor) → List UInt8 → σ → Option (Message d) × σ

/-- The wire format alone, with memory that never runs out. -/
def wireFormat : Unpacker Unit := ⟨fun d bytes s => (Proto3.unpack d bytes, s)⟩

theorem wireFormat_unpack {d : MessageDescriptor} {bytes : List UInt8} {m : Message d}
    (h : unpack d bytes = some m) (s : Unit) : wireFormat.unpack d bytes s = (some m, s) := by
  change (unpack d bytes, s) = _
  rw [h]

theorem packAs_own {d : MessageDescriptor} (m : Message d) : packAs d ⟨d, m⟩ = .ok m.pack :=
  if_pos rfl

theorem packAs_other {d d' : MessageDescriptor} (h : d ≠ d') (m : Message d) :
    packAs d' ⟨d, m⟩ = .error .descriptorAssert := if_neg h

@[simp] theorem Person.ofMessage_message (m : Person) : Person.ofMessage m.message = m := rfl

@[simp] theorem Spliter.ofMessage_message (m : Spliter) : Spliter.ofMessage m.message = m := rfl

@[simp] theorem PointPolygenDistance.ofMessage_message (m : PointPolygenDistance) :
    PointPolygenDistance.ofMessage m.message = m := rfl

section RoundTrip

/-! A request is unpacked to the message it was packed from, its strings cut at their first `NUL`
and never `NULL`. -/

theorem unpack_person {m : Person} (hk : m.unknownFields = []) (hlen : m.message.pack.length < 2 ^ 32) :
    unpack personDescriptor m.message.pack = some (Person.message ⟨some m.name.chars, []⟩) := by
  rw [unpack_pack (by decide) hk hlen,← hk]
  rfl

theorem unpack_fib {m : Fib} (hk : m.unknownFields = []) (hlen : m.message.pack.length < 2 ^ 32) :
    unpack fibDescriptor m.message.pack = some m.message := by
  rw [unpack_pack (by decide) hk hlen]
  rfl

theorem unpack_userId {m : UserId} (hk : m.unknownFields = []) (hlen : m.message.pack.length < 2 ^ 32) :
    unpack userIdDescriptor m.message.pack =
      some (UserId.message ⟨some m.userId.chars, some m.imeiId.chars, []⟩) := by
  rw [unpack_pack (by decide) hk hlen,← hk]
  rfl

theorem unpack_spliter {m : Spliter} (hk : m.unknownFields = []) (hlen : m.message.pack.length < 2 ^ 32) :
    unpack spliterDescriptor m.message.pack =
      some (Spliter.message ⟨m.data.map fun s => some s.chars, []⟩) := by
  rw [unpack_pack (by decide) hk hlen,← hk]
  rfl

theorem unpack_pointPolygenDistance {m : PointPolygenDistance} (hk : m.unknownFields = [])
    (hlen : m.message.pack.length < 2 ^ 32) :
    unpack pointPolygenDistanceDescriptor m.message.pack = some m.message := by
  rw [unpack_pack (by decide) hk hlen]
  rfl

end RoundTrip

end WamrTest
