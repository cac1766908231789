import WamrTest.Udf.Kernels

/-!
# The entry points

`str_reverse`, `fib`, `build_user_id`, `spliter` and `point_polygen_distance` of
`wasm-app/testapp.c`. Each unpacks its request without looking at the result, runs a kernel on
the message and packs the message into `out`. None of them frees what it unpacked.
-/

namespace WamrTest

open ByteMemory MachineInt Proto3

/-- The guest's `out` buffer and what its library calls work on. -/
structure Guest (σ : Type) where
  out : Mem UInt8
  heap : σ

variable {σ : Type} [Add Double] [Sub Double] [Mul Double]

/-- The frame all entry points share; `body` turns the message into the bytes to pack. -/
def serve (lib : Unpacker σ) (d : MessageDescriptor)
    (body : Message d → Except Fault (List UInt8)) (g : Guest σ) (request : List UInt8) :
    Except Fault Int32 × Guest σ :=
  match lib.unpack d request g.heap with
  | (none, heap) => (.error .nullMessage, { g with heap })
  | (some m, heap) =>
    match body m with
    | .error fault => (.error fault, { g with heap })
    | .ok response => (.ok (Int32.ofNat response.length), ⟨store g.out response, heap⟩)

def strlen (s : List UInt8) : ℕ := (CString.chars (some s)).length

def strReverseBody (m : Message personDescriptor) : Except Fault (List UInt8) :=
  let per := Person.ofMessage m
  match per.name with
  | none => .error .nullString
  | some name =>
    let len := Int32.ofNat (strlen name)
    let name := slice (Kernel.strReverse (ofList 0 name) len) 0 name.length
    personPack ⟨_, { per with name := some name : Person }.message⟩

def fibBody (m : Message fibDescriptor) : Except Fault (List UInt8) :=
  let p := Fib.ofMessage m
  fibPack ⟨_, { p with num := Kernel.fib p.num : Fib }.message⟩

def buildUserIdBody (m : Message userIdDescriptor) : Except Fault (List UInt8) := do
  let user := UserId.ofMessage m
  let userId ← Kernel.buildUserId user.userId user.imeiId
  fibPack ⟨_, { user with userId : UserId }.message⟩

/-- A slot of an array whose function has returned. -/
def readDead (_ : CString) : Except Fault CString := .error .deadArray

/-- `_spliter` returns the address of its own array, of which every slot is packed. -/
def spliterBody (arrayLen : ℕ) (m : Message spliterDescriptor) : Except Fault (List UInt8) := do
  let spliter := Spliter.ofMessage m
  match ← Kernel.element spliter.data 0 with
  | none => .error .nullString
  | some first =>
    let res ← Kernel.spliter first arrayLen
    let data ← res.mapM readDead
    spliterPack ⟨_, { spliter with data : Spliter }.message⟩

def pointPolygenDistanceBody (m : Message pointPolygenDistanceDescriptor) :
    Except Fault (List UInt8) := do
  let point := PointPolygenDistance.ofMessage m
  let distance ← Kernel.pointPolygenDistance point.point1 point.point2 point.point1.length
    point.point2.length
  pointPolygenDistancePack ⟨_, { point with distance : PointPolygenDistance }.message⟩

variable (lib : Unpacker σ) (g : Guest σ) (buf : Mem UInt8)

def strReverse (size : Int32) : Except Fault Int32 × Guest σ :=
  serve lib personDescriptor strReverseBody g (slice buf 0 (sizeT 32 size))

def fib (size : Int32) : Except Fault Int32 × Guest σ :=
  serve lib fibDescriptor fibBody g (slice buf 0 (sizeT 32 size))

def buildUserId (size : Int32) : Except Fault Int32 × Guest σ :=
  serve lib userIdDescriptor buildUserIdBody g (slice buf 0 (sizeT 32 size))

def spliter (size arrayLen : UInt32) : Except Fault Int32 × Guest σ :=
  serve lib spliterDescriptor (spliterBody arrayLen.toNat) g (slice buf 0 size.toNat)

def pointPolygenDistance (size : UInt32) : Except Fault Int32 × Guest σ :=
  serve lib pointPolygenDistanceDescriptor pointPolygenDistanceBody g (slice buf 0 size.toNat)

inductive Request
  | strReverse (buf : Mem UInt8) (size : Int32)
  | fib (buf : Mem UInt8) (size : Int32)
  | buildUserId (buf : Mem UInt8) (size : Int32)
  | spliter (buf : Mem UInt8) (size arrayLen : UInt32)
  | pointPolygenDistance (buf : Mem UInt8) (size : UInt32)

namespace Request

def run : Request → Except Fault Int32 × Guest σ
  | .strReverse buf size => WamrTest.strReverse lib g buf size
  | .fib buf size => WamrTest.fib lib g buf size
  | .buildUserId buf size => WamrTest.buildUserId lib g buf size
  | .spliter buf size arrayLen => WamrTest.spliter lib g buf size arrayLen
  | .pointPolygenDistance buf size => WamrTest.pointPolygenDistance lib g buf size

def descriptor : Request → MessageDescriptor
  | .strReverse _ _ => personDescriptor
  | .fib _ _ => fibDescriptor
  | .buildUserId _ _ => userIdDescriptor
  | .spliter _ _ _ => spliterDescriptor
  | .pointPolygenDistance _ _ => pointPolygenDistanceDescriptor

def bytes : Request → List UInt8
  | .strReverse buf size | .fib buf size | .buildUserId buf size => slice buf 0 (sizeT 32 size)
  | .spliter buf size _ | .pointPolygenDistance buf size => slice buf 0 size.toNat

def body : (r : Request) → Message r.descriptor → Except Fault (List UInt8)
  | .strReverse _ _ => strReverseBody
  | .fib _ _ => fibBody
  | .buildUserId _ _ => buildUserIdBody
  | .spliter _ _ arrayLen => spliterBody arrayLen.toNat
  | .pointPolygenDistance _ _ => pointPolygenDistanceBody

theorem run_eq_serve (r : Request) : r.run lib g = serve lib r.descriptor r.body g r.bytes := by
  cases r <;> rfl

end Request

section Serve

variable {lib : Unpacker σ} {d : MessageDescriptor} {body : Message d → Except Fault (List UInt8)}
  {g : Guest σ} {request : List UInt8}

omit [Add Double] [Sub Double] [Mul Double]

theorem serve_rejected {heap : σ} (h : lib.unpack d request g.heap = (none, heap)) :
    serve lib d body g request = (.error .nullMessage, { g with heap }) := by rw [serve,h]

theorem serve_fault {heap : σ} {m : Message d} {fault : Fault}
    (h : lib.unpack d request g.heap = (some m, heap)) (hb : body m = .error fault) :
    serve lib d body g request = (.error fault, { g with heap }) := by
  rw [serve,h]
  simp only [hb]

theorem serve_response {heap : σ} {m : Message d} {response : List UInt8}
    (h : lib.unpack d request g.heap = (some m, heap)) (hb : body m = .ok response) :
    serve lib d body g request =
      (.ok (Int32.ofNat response.length), ⟨store g.out response, heap⟩) := by
  rw [serve,h]
  simp only [hb]

theorem serve_heap :
    (serve lib d body g request).2.heap = (lib.unpack d request g.heap).2 := by
  rcases hu : lib.unpack d request g.heap with ⟨answer,heap⟩
  cases answer with
  | none => rw [serve_rejected hu]
  | some m =>
    cases hb : body m with
    | error fault => rw [serve_fault hu hb]
    | ok response => rw [serve_response hu hb]

end Serve

/-- What a caller gets: the bytes of `out` that the returned size counts. -/
def Request.response (r : Request) : Except Fault (List UInt8) :=
  (r.run lib g).1.map fun ret => slice (r.run lib g).2.out 0 (sizeT 32 ret)

theorem Request.response_eq (r : Request) :
    r.response lib g =
      match (lib.unpack r.descriptor r.bytes g.heap).1 with
      | none => .error .nullMessage
      | some m => (r.body m).map fun response => response.take (response.length % 2 ^ 32) := by
  rw [response,r.run_eq_serve]
  rcases hu : lib.unpack r.descriptor r.bytes g.heap with ⟨answer,heap⟩
  cases answer with
  | none =>
    rw [serve_rejected hu]
    rfl
  | some m =>
    cases hb : r.body m with
    | error fault =>
      simp only [serve_fault hu hb,hb]
      rfl
    | ok response =>
      simp only [serve_response hu hb,hb,Except.map,sizeT_32_ofNat]
      rw [slice_store_take _ _ (Nat.mod_le _ _)]

end WamrTest
