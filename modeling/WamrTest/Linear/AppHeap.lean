import WamrTest.Linear.Growth

/-!
# The host's view of the app heap

`wasm_module_malloc`, `wasm_module_free` and `wasm_module_dup_data` between the host and the
allocator, together with the growth of the memory under them.
-/

namespace WamrTest.Linear

open Arena ByteMemory Ems Transition

/-- The functions to allocate and free memory that a module may export instead of using an app heap.
`malloc` is `none` when its execution failed. -/
structure AppFunctions where
  malloc : MemoryInstance → UInt32 → Option (MemoryInstance × UInt32)
  free : MemoryInstance → UInt32 → MemoryInstance

structure Allocation where
  memory : MemoryInstance
  exception : Option String
  offset : UInt32
  nativeAddr : Option ℤ

def MemoryInstance.withHeap (m : MemoryInstance) (heap : Heap) : MemoryInstance := { m with heapHandle := some heap }

section WithHeap

variable (m : MemoryInstance) (heap : Heap)

@[simp] theorem withHeap_memoryData : (m.withHeap heap).memoryData = m.memoryData := rfl

@[simp] theorem withHeap_memoryDataEnd : (m.withHeap heap).memoryDataEnd = m.memoryDataEnd := rfl

@[simp] theorem withHeap_memoryDataSize : (m.withHeap heap).memoryDataSize = m.memoryDataSize := rfl

@[simp] theorem withHeap_heapData : (m.withHeap heap).heapData = m.heapData := rfl

@[simp] theorem withHeap_heapDataEnd : (m.withHeap heap).heapDataEnd = m.heapDataEnd := rfl

@[simp] theorem withHeap_withHeap (heap' : Heap) : (m.withHeap heap).withHeap heap' = m.withHeap heap' := rfl

theorem withHeap_self {m : MemoryInstance} {heap : Heap} (h : m.heapHandle = some heap) : m.withHeap heap = m := by
  rw [MemoryInstance.withHeap,← h]

end WithHeap

def wasmModuleMalloc (app : Option AppFunctions) (m : MemoryInstance) (size : UInt32) : Allocation :=
  match m.heapHandle with
  | some heap =>
    match gcAllocVo heap size with
    | (heap, some addr) =>
      ⟨m.withHeap heap, none, UInt32.ofInt (addr - m.memoryData), some addr⟩
    | (heap, none) =>
      ⟨m.withHeap heap, if heap.isHeapCorrupted then some "app heap corrupted" else none, 0, none⟩
  | none =>
    match app.bind (·.malloc m size) with
    | none => ⟨m, none, 0, none⟩
    | some (m, offset) => ⟨m, none, offset, if offset ≠ 0 then some (m.memoryData + offset.toNat) else none⟩

def wasmModuleFree (app : Option AppFunctions) (m : MemoryInstance) (ptr : UInt32) : MemoryInstance :=
  let addr := m.memoryData + ptr.toNat
  let appFree :=
    match app with
    | none => m
    | some app => if m.memoryData ≤ addr ∧ addr < m.memoryDataEnd then app.free m ptr else m
  if ptr = 0 then m
  else match m.heapHandle with
    | none => appFree
    | some heap =>
      if m.heapData ≤ addr ∧ addr < m.heapDataEnd then m.withHeap (gcFreeVo heap addr).1
      else appFree

def MemoryInstance.write (m : MemoryInstance) (f : Mem UInt8 → Mem UInt8) : MemoryInstance :=
  { m with heapHandle := m.heapHandle.map fun heap => { heap with mem := f heap.mem } }

@[simp] theorem write_withHeap (m : MemoryInstance) (heap : Heap) (f : Mem UInt8 → Mem UInt8) :
    (m.withHeap heap).write f = m.withHeap { heap with mem := f heap.mem } := rfl

/-- `wasm_module_dup_data`. The copy goes to the native address that the offset is translated to,
and nothing is copied to a null pointer. -/
def wasmModuleDupData (app : Option AppFunctions) (m : MemoryInstance) (src : Mem UInt8) (size : UInt32) :
    MemoryInstance × UInt32 :=
  let a := wasmModuleMalloc app m size
  let buffer := addrAppToNative a.memory a.offset
  if a.offset ≠ 0 ∧ buffer ≠ 0 then (a.memory.write fun mem => memcpy mem buffer src 0 size.toNat, a.offset)
  else (a.memory, a.offset)

/-- What a host does with an instance; `store` writes byte `i` of the object at offset `ptr`. -/
inductive HostCall
  | malloc (size : UInt32)
  | free (ptr : UInt32)
  | dup (src : Mem UInt8) (size : UInt32)
  | store (ptr : UInt32) (i : ℕ) (value : UInt8)
  | enlarge (mprotect : Bool) (incPageCount : UInt32)

/-- An instance with an app heap, the sizes that were asked for of the objects that are held, and
what was last written at an address. -/
structure Host where
  memory : MemoryInstance
  live : ℤ → Option UInt32
  written : ℤ → Option UInt8

namespace Host

def start (memory : MemoryInstance) : Host := ⟨memory, fun _ => none, fun _ => none⟩

/-- A module with an app heap has no functions of its own to allocate and free memory. -/
def step (s : Host) : HostCall → Host
  | .malloc size =>
    let a := wasmModuleMalloc none s.memory size
    { s with
      memory := a.memory
      live :=
        if a.offset = 0 then s.live
        else Function.update s.live (a.memory.memoryData + a.offset.toNat) (some size) }
  | .free ptr =>
    let obj := s.memory.memoryData + ptr.toNat
    let size := ((s.live obj).getD 0).toNat
    { memory := wasmModuleFree none s.memory ptr
      live := Function.update s.live obj none
      written := fun z => if obj ≤ z ∧ z < obj + size then none else s.written z }
  | .dup src size =>
    let (memory, offset) := wasmModuleDupData none s.memory src size
    let obj := memory.memoryData + offset.toNat
    if offset = 0 then { s with memory }
    else
      { memory
        live := Function.update s.live obj (some size)
        written := fun z =>
          if addrAppToNative memory offset ≠ 0 ∧ obj ≤ z ∧ z < obj + size.toNat then some (src (z - obj))
          else s.written z }
  | .store ptr i value =>
    let addr := s.memory.memoryData + ptr.toNat + i
    { s with
      memory := s.memory.write fun mem => Function.update mem addr value
      written := Function.update s.written addr (some value) }
  | .enlarge mprotect incPageCount => { s with memory := grow s.memory (mprotect, incPageCount) }

/-- `wasm_module_free` may also be called with 0 or an offset outside the app heap. -/
def Allows (s : Host) : HostCall → Prop
  | .free ptr =>
    let addr := s.memory.memoryData + ptr.toNat
    ptr = 0 ∨ addr < s.memory.heapData ∨ s.memory.heapDataEnd ≤ addr ∨ (s.live addr).isSome
  | .store ptr i _ => i < ((s.live (s.memory.memoryData + ptr.toNat)).getD 0).toNat
  | _ => True

instance (s : Host) (call : HostCall) : Decidable (s.Allows call) := by
  cases call <;> unfold Allows <;> infer_instance

def client (s : Host) (heap : Heap) : Client := ⟨heap, s.live, s.written⟩

end Host

/-- The client's objects are the chunks in use, and the heap is where the instance has it. -/
structure Host.Serves (s : Host) (h : Heap) (bs : List Block) : Prop where
  handle : s.memory.heapHandle = some h
  served : Served (s.client h) bs
  baseAddr : h.baseAddr = s.memory.heapData + 4
  currentSize : h.currentSize = (s.memory.heapDataEnd - s.memory.heapData - 4) / 8 * 8
  low : 0 < s.memory.memoryData ∧ s.memory.memoryData ≤ s.memory.heapData
  high : s.memory.heapDataEnd ≤ s.memory.memoryData + 2 ^ 32
  sized : Sized s.memory

theorem toNat_ofInt {x : ℤ} (hl : 0 ≤ x) (hh : x < 2 ^ 32) : ((UInt32.ofInt x).toNat : ℤ) = x := by
  rw [UInt32.ofInt,UInt32.toNat_ofNat']
  omega

section Malloc

variable {s : Host} {h : Heap} {bs : List Block}

private theorem Host.Serves.obj_bounds (hs : s.Serves h bs) {h' : Heap} {size : UInt32} {p rest q : List Block}
    {u t : ℤ}
    (ha : Allocated h h' bs size p u t rest q) :
    s.memory.heapData + 8 ≤ h.baseAddr + total p + hmuSize ∧
      h.baseAddr + total p + hmuSize < s.memory.heapDataEnd := by
  have hpos := hs.served.heap.layout.pos
  have htotal := hs.served.heap.total
  change total bs = h.currentSize at htotal
  rw [ha.split,total_append,total_cons] at htotal
  rw [ha.split] at hpos
  have hp := total_nonneg fun b hb => hpos b (List.mem_append_left _ hb)
  have hq := total_nonneg fun b hb => hpos b (List.mem_append_right _ (List.mem_cons_of_mem _ hb))
  have hneed := (totSize_bounds size).1
  have hfits := ha.fits
  have hbase := hs.baseAddr
  have hsize := hs.currentSize
  rw [hmuSize]
  dsimp only at htotal
  omega

private theorem wasmModuleMalloc_spec (hs : s.Serves h bs) (size : UInt32) :
    (∀ b ∈ bs, b.free = true → b.size < totSize size) ∧
        wasmModuleMalloc none s.memory size = ⟨s.memory, none, 0, none⟩ ∨
      ∃ h' p u t rest q, ∃ offset : UInt32, Allocated h h' bs size p u t rest q ∧
        wasmModuleMalloc none s.memory size = ⟨s.memory.withHeap h', none, offset,
          some (h.baseAddr + total p + hmuSize)⟩ ∧
        offset ≠ 0 ∧ s.memory.memoryData + offset.toNat = h.baseAddr + total p + hmuSize := by
  have hhandle := hs.handle
  have hintact := hs.served.heap.intact
  change h.isHeapCorrupted = false at hintact
  unfold wasmModuleMalloc
  rw [hhandle]
  rcases gcAllocVo_spec hs.served.heap size with ⟨hsmall,hnone⟩ | ⟨h',p,u,t,rest,q,ha⟩
  · left
    change gcAllocVo h size = (h, none) at hnone
    simp only [hnone,hintact]
    rw [withHeap_self hhandle]
    exact ⟨hsmall,rfl⟩
  · right
    have hresult := ha.result
    have hbounds := hs.obj_bounds ha
    have hlow := hs.low
    have hhigh := hs.high
    change gcAllocVo h size = (h', some (h.baseAddr + total p + hmuSize)) at hresult
    have hoffset := toNat_ofInt (x := h.baseAddr + total p + hmuSize - s.memory.memoryData) (by omega) (by omega)
    refine ⟨h',p,u,t,rest,q,UInt32.ofInt (h.baseAddr + total p + hmuSize - s.memory.memoryData),ha,
      by simp only [hresult],?_,by omega⟩
    intro hzero
    rw [hzero] at hoffset
    change (0 : ℤ) = _ at hoffset
    omega

end Malloc

private theorem served_fill {c : Client} {bs : List Block} (hs : Served c bs) {obj : ℤ} {n : UInt32}
    (hobj : c.live obj = some n) {mem : Mem UInt8} {written : ℤ → Option UInt8}
    (hsame : ∀ z, z < obj ∨ obj + n.toNat ≤ z → mem z = c.heap.mem z)
    (hwritten : ∀ z v, written z = some v → mem z = v ∧
      (obj ≤ z ∧ z < obj + n.toNat ∨ c.written z = some v)) :
    Served ⟨{ c.heap with mem }, c.live, written⟩ bs := by
  obtain ⟨u,hused,hn⟩ := hs.live obj n hobj
  rw [hmuSize] at hused hn
  have hheap := hs.heap.write hused (u := obj) (v := obj + n.toNat) (by rw [hmuSize]; omega) (by omega) hsame
  refine ⟨hheap,hs.used,hs.live,?_⟩
  intro z v hz
  obtain ⟨hmem,hin | hold⟩ := hwritten z v hz
  · exact ⟨hmem,obj,n,hobj,hin⟩
  · exact ⟨hmem,(hs.written z v hold).2⟩

private theorem step_malloc {c : Client} {h' : Heap} {size : UInt32} {obj : ℤ}
    (hresult : gcAllocVo c.heap size = (h', some obj)) :
    c.step (.malloc size) = ⟨h', Function.update c.live obj (some size), c.written⟩ := by
  simp only [Client.step,hresult]

section Step

variable {s : Host} {h : Heap} {bs : List Block}

theorem Host.Serves.malloc (hs : s.Serves h bs) (size : UInt32) :
    (∃ h' bs', (s.step (.malloc size)).Serves h' bs') ∧ Kept s.memory (s.step (.malloc size)).memory := by
  obtain ⟨bs',hserved⟩ := hs.served.malloc size
  rcases wasmModuleMalloc_spec hs size with ⟨-,hnone⟩ | ⟨h',p,u,t,rest,q,offset,ha,hsome,hne,hoffset⟩
  · have hsame : s.step (.malloc size) = s := by
      simp only [Host.step,hnone,if_true]
    rw [hsame]
    exact ⟨⟨h,bs,hs⟩,.refl _⟩
  · rw [step_malloc ha.result] at hserved
    have hstep : s.step (.malloc size) = ⟨s.memory.withHeap h',
        Function.update s.live (h.baseAddr + total p + hmuSize) (some size), s.written⟩ := by
      simp only [Host.step,hsome,if_neg hne,withHeap_memoryData,hoffset]
    rw [hstep]
    refine ⟨⟨h',bs',?_⟩,⟨rfl,rfl,rfl,le_rfl⟩⟩
    constructor
    · rfl
    · exact hserved
    · exact ha.baseAddr.trans hs.baseAddr
    · exact ha.currentSize.trans hs.currentSize
    · exact hs.low
    · exact hs.high
    · exact ⟨hs.sized.pages,hs.sized.dataEnd,hs.sized.exact⟩

private theorem Host.Serves.live_bounds (hs : s.Serves h bs) {obj : ℤ} {n : UInt32} (hobj : s.live obj = some n) :
    s.memory.heapData + 8 ≤ obj ∧ obj < s.memory.heapDataEnd ∧ obj + n.toNat ≤ s.memory.heapDataEnd := by
  obtain ⟨u,hused,-⟩ := hs.served.live obj n hobj
  obtain ⟨_,hchunk⟩ := hs.served.heap.layout.chunkAt hused
  have hmin := hchunk.smallest
  have hplace := place_bounds hs.served.heap.layout.pos hused
  have hbounds := hs.served.bounds hobj
  have htotal := hs.served.heap.total
  have hbase := hs.baseAddr
  have hsize := hs.currentSize
  rw [htotal] at hplace
  rw [Heap.endAddr] at hbounds
  simp only [hmuSize,Host.client] at hmin hplace hbounds
  omega

theorem Host.Serves.free_live (hs : s.Serves h bs) {ptr : UInt32} {n : UInt32}
    (hlive : s.live (s.memory.memoryData + ptr.toNat) = some n) :
    (∃ h' bs', (s.step (.free ptr)).Serves h' bs') ∧ Kept s.memory (s.step (.free ptr)).memory := by
  obtain ⟨hfirst,hlast,-⟩ := hs.live_bounds hlive
  obtain ⟨hlow,hlow'⟩ := hs.low
  have hne : ptr ≠ 0 := by
    intro hzero
    rw [hzero] at hfirst
    change _ ≤ s.memory.memoryData + 0 at hfirst
    omega
  have hallows : (s.client h).Allows (.free (s.memory.memoryData + ptr.toNat)) := by
    right
    right
    exact Option.isSome_iff_exists.mpr ⟨n,hlive⟩
  obtain ⟨bs',hserved⟩ := hs.served.free hallows
  have hpool := hs.served.samePool _ hallows
  have hfree : wasmModuleFree none s.memory ptr =
      s.memory.withHeap (gcFreeVo h (s.memory.memoryData + ptr.toNat)).1 := by
    unfold wasmModuleFree
    simp only
    rw [if_neg hne,hs.handle]
    simp only
    rw [if_pos ⟨by omega,hlast⟩]
  refine ⟨⟨(gcFreeVo h (s.memory.memoryData + ptr.toNat)).1,bs',?_⟩,?_⟩
  · simp only [Host.step,hfree]
    constructor
    · rfl
    · exact hserved
    · exact hpool.baseAddr.trans hs.baseAddr
    · exact hpool.currentSize.trans hs.currentSize
    · exact hs.low
    · exact hs.high
    · exact ⟨hs.sized.pages,hs.sized.dataEnd,hs.sized.exact⟩
  · simp only [Host.step,hfree]
    exact ⟨rfl,rfl,rfl,le_rfl⟩

theorem Host.Serves.free (hs : s.Serves h bs) {ptr : UInt32} (hok : s.Allows (.free ptr)) :
    (∃ h' bs', (s.step (.free ptr)).Serves h' bs') ∧ Kept s.memory (s.step (.free ptr)).memory := by
  cases hlive : s.live (s.memory.memoryData + ptr.toNat) with
  | some n => exact hs.free_live hlive
  | none =>
    have hfree : wasmModuleFree none s.memory ptr = s.memory := by
      unfold wasmModuleFree
      simp only
      split
      next => rfl
      next hne =>
        rw [hs.handle]
        simp only
        rw [if_neg]
        intro hin
        rcases hok with hzero | hbelow | habove | hsome
        · exact hne hzero
        · omega
        · omega
        · rw [hlive] at hsome
          exact absurd hsome (by simp)
    have hsame : s.step (.free ptr) = s := by
      have hupdate : Function.update s.live (s.memory.memoryData + ptr.toNat) none = s.live := by
        rw [← hlive]
        exact Function.update_eq_self _ _
      have hwritten (z : ℤ) (obj : ℤ) : ¬ (obj ≤ z ∧ z < obj + ((0 : UInt32).toNat : ℤ)) := by
        change ¬ (obj ≤ z ∧ z < obj + 0)
        omega
      simp only [Host.step,hfree,hlive,hupdate,Option.getD_none,hwritten,if_false]
    rw [hsame]
    exact ⟨⟨h,bs,hs⟩,.refl _⟩

theorem Host.Serves.fill (hs : s.Serves h bs) {obj : ℤ} {n : UInt32} (hobj : s.live obj = some n)
    (f : Mem UInt8 → Mem UInt8) (written : ℤ → Option UInt8)
    (hsame : ∀ z, z < obj ∨ obj + n.toNat ≤ z → f h.mem z = h.mem z)
    (hwritten : ∀ z v, written z = some v → f h.mem z = v ∧
      (obj ≤ z ∧ z < obj + n.toNat ∨ s.written z = some v)) :
    Host.Serves ⟨s.memory.write f, s.live, written⟩ { h with mem := f h.mem } bs ∧
      Kept s.memory (s.memory.write f) := by
  refine ⟨?_,⟨rfl,rfl,rfl,le_rfl⟩⟩
  constructor
  · simp only [MemoryInstance.write,hs.handle,Option.map_some]
  · exact served_fill hs.served hobj hsame hwritten
  · exact hs.baseAddr
  · exact hs.currentSize
  · exact hs.low
  · exact hs.high
  · exact ⟨hs.sized.pages,hs.sized.dataEnd,hs.sized.exact⟩

/-- A duplicate is an allocation that is written to where its offset can be translated. -/
theorem Host.step_dup (s : Host) (src : Mem UInt8) (size : UInt32) :
    let a := wasmModuleMalloc none s.memory size
    let s' := s.step (.malloc size)
    s.step (.dup src size) =
      if a.offset ≠ 0 ∧ addrAppToNative a.memory a.offset ≠ 0 then
        ⟨s'.memory.write fun mem => memcpy mem (addrAppToNative a.memory a.offset) src 0 size.toNat, s'.live,
          fun z => if a.memory.memoryData + a.offset.toNat ≤ z ∧
            z < a.memory.memoryData + a.offset.toNat + size.toNat then
              some (src (z - (a.memory.memoryData + a.offset.toNat))) else s.written z⟩
      else s' := by
  cases ha : wasmModuleMalloc none s.memory size with
  | mk memory exception offset nativeAddr =>
    by_cases hzero : offset = 0
    · simp [Host.step,wasmModuleDupData,ha,hzero]
    · by_cases hnull : addrAppToNative memory offset = 0
      · simp [Host.step,wasmModuleDupData,ha,hzero,hnull]
      · have hsame (f : Mem UInt8 → Mem UInt8) :
            addrAppToNative (memory.write f) offset = addrAppToNative memory offset := rfl
        have hdata (f : Mem UInt8 → Mem UInt8) : (memory.write f).memoryData = memory.memoryData := rfl
        simp [Host.step,wasmModuleDupData,ha,hzero,hnull,hsame,hdata]

theorem Host.Serves.dup (hs : s.Serves h bs) (src : Mem UInt8) (size : UInt32) :
    (∃ h' bs', (s.step (.dup src size)).Serves h' bs') ∧ Kept s.memory (s.step (.dup src size)).memory := by
  have hdup := s.step_dup src size
  obtain ⟨⟨h₁,bs₁,hs₁⟩,hkept⟩ := hs.malloc size
  simp only at hdup
  rw [hdup]
  split
  next hwrite =>
    obtain ⟨hne,hnative⟩ := hwrite
    have hbuffer : addrAppToNative (wasmModuleMalloc none s.memory size).memory
        (wasmModuleMalloc none s.memory size).offset =
        (wasmModuleMalloc none s.memory size).memory.memoryData +
          (wasmModuleMalloc none s.memory size).offset.toNat := by
      unfold addrAppToNative at hnative ⊢
      simp only at hnative ⊢
      split at hnative
      next hin => exact if_pos hin
      next => exact absurd rfl hnative
    have hlive : (s.step (.malloc size)).live ((wasmModuleMalloc none s.memory size).memory.memoryData +
        (wasmModuleMalloc none s.memory size).offset.toNat) = some size := by
      simp only [Host.step,if_neg hne]
      exact Function.update_self _ _ _
    have hwritten : (s.step (.malloc size)).written = s.written := rfl
    rw [hbuffer]
    generalize (wasmModuleMalloc none s.memory size).memory.memoryData +
        ((wasmModuleMalloc none s.memory size).offset.toNat : ℤ) = obj at *
    have hfill := hs₁.fill hlive (fun mem => memcpy mem obj src 0 size.toNat)
      (fun z => if obj ≤ z ∧ z < obj + size.toNat then some (src (z - obj)) else s.written z)
      (fun z hz => memcpy_outside _ _ _ _ _ _ hz) ?_
    · exact ⟨⟨_,_,hfill.1⟩,hkept.trans hfill.2⟩
    · intro z v hz
      split at hz
      next hin =>
        rw [memcpy_inside _ _ _ _ _ _ hin.1 hin.2,zero_add]
        exact ⟨Option.some.inj hz,.inl hin⟩
      next hout =>
        rw [memcpy_outside _ _ _ _ _ _ (by omega)]
        exact ⟨(hs₁.served.written z v hz).1,.inr hz⟩
  next => exact ⟨⟨h₁,bs₁,hs₁⟩,hkept⟩

theorem Host.Serves.store (hs : s.Serves h bs) {ptr : UInt32} {i : ℕ} {value : UInt8}
    (hok : s.Allows (.store ptr i value)) :
    (∃ h' bs', (s.step (.store ptr i value)).Serves h' bs') ∧
      Kept s.memory (s.step (.store ptr i value)).memory := by
  cases hlive : s.live (s.memory.memoryData + ptr.toNat) with
  | none =>
    rw [Host.Allows,hlive] at hok
    exact absurd hok (Nat.not_lt_zero i)
  | some n =>
    rw [Host.Allows,hlive] at hok
    change i < n.toNat at hok
    have hfill := hs.fill hlive
      (fun mem => Function.update mem (s.memory.memoryData + ptr.toNat + i) value)
      (Function.update s.written (s.memory.memoryData + ptr.toNat + i) (some value))
      (fun z hz => Function.update_of_ne (by omega) _ _) ?_
    · exact ⟨⟨_,_,hfill.1⟩,hfill.2⟩
    · intro z v hz
      by_cases heq : z = s.memory.memoryData + ptr.toNat + i
      · rw [heq,Function.update_self] at hz
        rw [heq,Function.update_self]
        exact ⟨Option.some.inj hz,.inl ⟨by omega,by omega⟩⟩
      · rw [Function.update_of_ne heq] at hz ⊢
        exact ⟨(hs.served.written z v hz).1,.inr hz⟩

theorem Host.Serves.enlarge (hs : s.Serves h bs) (mprotect : Bool) (inc : UInt32) :
    (∃ h' bs', (s.step (.enlarge mprotect inc)).Serves h' bs') ∧
      Kept s.memory (s.step (.enlarge mprotect inc)).memory := by
  obtain ⟨hkept,hsized⟩ := grow_kept hs.sized (mprotect, inc)
  refine ⟨⟨h,bs,?_⟩,hkept⟩
  constructor
  · exact (grow_heapHandle s.memory (mprotect, inc)).trans hs.handle
  · exact hs.served
  · simp only [Host.step,hkept.heapData]
    exact hs.baseAddr
  · simp only [Host.step,hkept.heapData,hkept.heapDataEnd]
    exact hs.currentSize
  · simp only [Host.step,hkept.heapData,hkept.memoryData]
    exact hs.low
  · simp only [Host.step,hkept.heapDataEnd,hkept.memoryData]
    exact hs.high
  · exact hsized

theorem Host.Serves.step (hs : s.Serves h bs) (call : HostCall) (hok : s.Allows call) :
    (∃ h' bs', (s.step call).Serves h' bs') ∧ Kept s.memory (s.step call).memory := by
  cases call with
  | malloc size => exact hs.malloc size
  | free ptr => exact hs.free hok
  | dup src size => exact hs.dup src size
  | store ptr i value => exact hs.store hok
  | enlarge mprotect inc => exact hs.enlarge mprotect inc

theorem Host.Serves.run (hs : s.Serves h bs) {calls : List HostCall} (hok : Guarded Host.step Host.Allows s calls) :
    (∃ h' bs', (run Host.step s calls).Serves h' bs') ∧ Kept s.memory (run Host.step s calls).memory := by
  refine hok.invariant (P := fun s' => (∃ h' bs', s'.Serves h' bs') ∧ Kept s.memory s'.memory) ?_
    ⟨⟨h,bs,hs⟩,.refl _⟩
  rintro s' call ⟨⟨h',bs',hs'⟩,hkept⟩ hcall
  obtain ⟨hnext,hkept'⟩ := hs'.step call hcall
  exact ⟨hnext,hkept.trans hkept'⟩

end Step

section End

private theorem split_end {us p q : List Block} {u v : ℤ} (hused : ∀ b ∈ us, b.free = false)
    (h : us ++ [⟨u, true⟩] = p ++ ⟨v, true⟩::q) : p = us ∧ v = u ∧ q = [] := by
  induction us generalizing p with
  | nil =>
    cases p with
    | nil =>
      have hcons := List.cons.inj h
      exact ⟨rfl,(congrArg Block.size hcons.1).symm,hcons.2.symm⟩
    | cons b p => exact absurd (List.cons.inj h).2 (by simp)
  | cons b us ih =>
    have hb := hused b List.mem_cons_self
    cases p with
    | nil =>
      have hfree := congrArg Block.free (List.cons.inj h).1
      rw [hb] at hfree
      exact absurd hfree (by simp)
    | cons c p =>
      obtain ⟨rfl,htail⟩ := List.cons.inj h
      obtain ⟨rfl,rfl,rfl⟩ := ih (fun d hd => hused d (List.mem_cons_of_mem _ hd)) htail
      exact ⟨rfl,rfl,rfl⟩

variable {s : Host} {h : Heap} {us : List Block} {u : ℤ}

/-- An allocation from a heap with all its free bytes at the end. -/
theorem Host.Serves.malloc_end (hs : s.Serves h (us ++ [⟨u, true⟩])) (hused : ∀ b ∈ us, b.free = false)
    {size : UInt32} (hroom : totSize size + 16 ≤ u) :
    ∃ h', ∃ offset : UInt32, wasmModuleMalloc none s.memory size =
        ⟨s.memory.withHeap h', none, offset, some (s.memory.heapData + 8 + total us)⟩ ∧
      offset ≠ 0 ∧ s.memory.memoryData + offset.toNat = s.memory.heapData + 8 + total us ∧
      Host.Serves ⟨s.memory.withHeap h',
        Function.update s.live (s.memory.heapData + 8 + total us) (some size), s.written⟩ h'
        (us ++ [⟨totSize size, false⟩] ++ [⟨u - totSize size, true⟩]) := by
  have hbase := hs.baseAddr
  obtain ⟨⟨h₁,bs₁,hs₁⟩,-⟩ := hs.malloc size
  rcases wasmModuleMalloc_spec hs size with ⟨hsmall,-⟩ | ⟨h',p,v,t,rest,q,offset,ha,hsome,hne,hoffset⟩
  · have hlt := hsmall ⟨u, true⟩ (List.mem_append_right _ List.mem_cons_self) rfl
    simp only at hlt
    omega
  · obtain ⟨rfl,rfl,rfl⟩ := split_end hused ha.split
    have haddr : h.baseAddr + total p + hmuSize = s.memory.heapData + 8 + total p := by
      rw [hbase,hmuSize]
      omega
    rw [haddr] at hsome hoffset
    refine ⟨h',offset,hsome,hne,hoffset,?_⟩
    have hcarve := ha.carve
    rw [carve,smallestSize_eq,if_pos hroom] at hcarve
    obtain ⟨hfirst,hrest⟩ := List.cons.inj hcarve
    have ht := congrArg Block.size hfirst
    simp only at ht
    have hstep : s.step (.malloc size) = ⟨s.memory.withHeap h',
        Function.update s.live (s.memory.heapData + 8 + total p) (some size), s.written⟩ := by
      simp only [Host.step,hsome,if_neg hne,withHeap_memoryData,hoffset]
    rw [hstep] at hs₁
    have hhandle := Option.some.inj hs₁.handle
    subst hhandle
    have hblocks := (blocks_eq hs₁.served.heap).symm
    change bs₁ = blocks h' at hblocks
    rw [blocks_eq ha.consistent,← hrest,← ht,List.append_nil] at hblocks
    rw [hblocks] at hs₁
    rw [List.append_assoc]
    exact hs₁

theorem Host.Serves.malloc_large {bs : List Block} (hs : s.Serves h bs) (size : UInt32)
    (hlarge : h.currentSize < totSize size) : wasmModuleMalloc none s.memory size = ⟨s.memory, none, 0, none⟩ := by
  rcases wasmModuleMalloc_spec hs size with ⟨-,hnone⟩ | ⟨h',p,v,t,rest,q,offset,ha,-⟩
  · exact hnone
  · have hplace := place_bounds hs.served.heap.layout.pos (ha.split ▸ mem_place_middle h.baseAddr p ⟨v, true⟩ q)
    have htotal := hs.served.heap.total
    have hp := total_nonneg fun b hb => hs.served.heap.layout.pos b (ha.split ▸ List.mem_append_left _ hb)
    have hfits := ha.fits
    change total bs = h.currentSize at htotal
    simp only at hplace
    omega

end End

section Results

variable {os : Os} {module : Module} {memory : WASMMemory} {heapSize : UInt32} {m : MemoryInstance}
  {heapBase : Option UInt32}

private theorem heapGiven_lt (module : Module) (memory : WASMMemory) {h : ℕ} (hh : h ≤ 2 ^ 29) :
    heapGiven module memory h < 2 ^ 30 := by
  have hpages : 65536 * pagesOf h - 1024 < 2 ^ 30 := by
    unfold pagesOf
    omega
  unfold heapGiven
  split
  · exact hpages
  · omega

private theorem appHeapSize_le (module : Module) (heapSize : UInt32) : module.appHeapSize heapSize ≤ 2 ^ 29 :=
  (module.heapSize_le _).trans (checkHeapSize_le heapSize)

theorem start_serves (h : memoryInstantiate os module memory (checkHeapSize heapSize) = .ok (m, heapBase))
    (hheap : 0 < module.appHeapSize heapSize) :
    ∃ heap, (Host.start m).Serves heap [⟨heap.currentSize, true⟩] := by
  have hi := instantiated h
  have happ := hi.heap hheap
  have hbound := hi.bound
  have hinside := happ.inside
  have hsize := happ.size
  have hstart := happ.start
  have hgiven := heapGiven_lt module memory (appHeapSize_le module heapSize)
  have hsized := hi.sized
  obtain ⟨p,memoryData,structBuf,heap,hmap,hplaced,rfl,rfl,hpool⟩ := memoryInstantiate_ok h
  have hpos := (os.mapped _ hmap).1
  have hdata : (p.instantiate memoryData (UInt32.ofNat (os.roundUp p.size)) heap).memoryData = memoryData := rfl
  rcases hpool with ⟨-,hinit,hsome⟩ | ⟨hzero,-⟩
  · obtain ⟨hp,rfl⟩ := Option.isSome_iff_exists.mp hsome
    rw [← hplaced.given hheap] at hsize hgiven
    have hsession : Session os.mem structBuf
        (p.instantiate memoryData (UInt32.ofNat (os.roundUp p.size)) hp).heapData p.heapSize.toNat hp [] :=
      ⟨hinit.symm,by omega,by exact_mod_cast hgiven,trivial⟩
    obtain ⟨hconsistent,hbase,hcurrent⟩ := hsession.start
    refine ⟨hp,?_⟩
    constructor
    · rfl
    · exact .start hconsistent
    · exact hbase
    · rw [hcurrent]
      simp only [Host.start]
      omega
    · simp only [Host.start]
      omega
    · simp only [Host.start]
      omega
    · exact hsized
  · have hpos' := heapGiven_pos module memory hheap
    rw [← hplaced.given hheap] at hpos'
    omega

/-- What the host relies on. -/
structure HostReliable (os : Os) (m : MemoryInstance) (s : Host) : Prop where
  memoryData : s.memory.memoryData = m.memoryData
  heap : ∃ h, s.memory.heapHandle = some h ∧ h.isHeapCorrupted = false ∧ ∀ z v, s.written z = some v → h.mem z = v
  objects : ∀ obj n, s.live obj = some n → 8 ∣ obj ∧ m.heapData + 8 ≤ obj ∧ obj + n.toNat ≤ m.heapDataEnd
  apart : ∀ o n o' n', s.live o = some n → s.live o' = some n' → o < o' → o + n.toNat + 4 ≤ o'
  offsets : ∀ obj n, s.live obj = some n → ∃ offset : UInt32, offset ≠ 0 ∧ obj = m.memoryData + offset.toNat ∧
    (m.size + os.pageSize ≤ 2 ^ 32 → addrAppToNative s.memory offset = obj ∧
      addrNativeToApp s.memory obj = offset ∧ validateAppAddr s.memory offset n)

theorem serves_reliable {n : ℕ} {heap : Heap} {bs : List Block} (hserves : (Host.start m).Serves heap bs)
    (hi : Instantiated os module memory n m heapBase) (hheap : 0 < n) {calls : List HostCall}
    (hok : Guarded Host.step Host.Allows (.start m) calls) :
    HostReliable os m (run Host.step (.start m) calls) := by
  have happ := hi.heap hheap
  have hbound := hi.bound
  have hinside := happ.inside
  obtain ⟨⟨h',bs',hs⟩,hkept⟩ := hserves.run hok
  have hlow := hserves.low
  have hdata := hkept.memoryData
  have hpool := hkept.heapData
  have hend := hkept.heapDataEnd
  have hsize := hkept.dataSize
  change _ = m.memoryData at hdata
  change _ = m.heapData at hpool
  change _ = m.heapDataEnd at hend
  change m.memoryDataSize.toNat ≤ _ at hsize
  change 0 < m.memoryData ∧ m.memoryData ≤ m.heapData at hlow
  generalize run Host.step (.start m) calls = s at *
  have hbase : h'.baseAddr = m.heapData + 4 := by
    rw [← hpool]
    exact hs.baseAddr
  have hcurrent : h'.currentSize = (m.heapDataEnd - m.heapData - 4) / 8 * 8 := by
    rw [← hpool,← hend]
    exact hs.currentSize
  have hreliable := hs.served.reliable hbase hcurrent
  constructor
  · exact hdata
  · exact ⟨h',hs.handle,hreliable.intact,hreliable.kept⟩
  · intro obj n hobj
    have hin := hreliable.inside obj n hobj
    exact ⟨hreliable.aligned obj n hobj,by omega,by omega⟩
  · exact hreliable.apart
  · intro obj n hobj
    obtain ⟨hfirst,hlast,hall⟩ := hs.live_bounds hobj
    rw [hpool] at hfirst
    rw [hend] at hlast hall
    have hoffset := toNat_ofInt (x := obj - m.memoryData) (by omega) (by omega)
    generalize UInt32.ofInt (obj - m.memoryData) = offset at hoffset
    refine ⟨offset,?_,by omega,?_⟩
    · intro hzero
      rw [hzero] at hoffset
      change (0 : ℤ) = _ at hoffset
      omega
    · intro hfits
      have hround : os.roundUp m.size < 2 ^ 32 := by
        have hle := os.roundUp_le hi.bound
        have hne := mt (os.roundUp_eq_iff hi.bound).mp (not_lt.mpr hfits)
        omega
      have hle := os.le_roundUp m.size
      have hsize' := hi.dataSize
      rw [Nat.mod_eq_of_lt hround] at hsize'
      obtain ⟨hnative,hback⟩ := addr_roundTrip hs.sized offset (by omega)
      have haddr : s.memory.memoryData + offset.toNat = obj := by omega
      rw [haddr] at hnative hback
      refine ⟨hnative,hback,?_⟩
      rw [validateAppAddr_iff]
      omega

end Results

end WamrTest.Linear
