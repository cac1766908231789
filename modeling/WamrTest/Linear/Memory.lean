import WamrTest.Ems.Session

/-!
# The linear memory of an instance

`load_memory` and the shrinking at the end of `load_from_sections`, `memory_instantiate` with the
app heap it places, and `wasm_enlarge_memory`, built with hardware bounds checks: a memory is
mapped in one piece and never moves.
-/

namespace WamrTest.Linear

open ByteMemory

def uint32Max : UInt32 := 4294967295

def defaultNumBytesPerPage : UInt32 := 65536

def defaultMaxPages : UInt32 := 65536

/-- `WASMMemory` as the loader leaves it, with pages of 64 KB, with one page or with none. -/
structure WASMMemory where
  numBytesPerPage : UInt32
  initPageCount : UInt32
  maxPageCount : UInt32
  loaded : numBytesPerPage = defaultNumBytesPerPage ∧ initPageCount ≤ maxPageCount ∧
      maxPageCount ≤ defaultMaxPages ∨
    initPageCount = maxPageCount ∧ maxPageCount ≤ 1

def memorySizeError : String := "memory size must be at most 65536 pages (4GiB)"

/-- `load_memory`, once the limits are read; `declared` is the maximum when the flags have one. -/
def loadMemory (initPageCount : UInt32) (declared : Option UInt32) : Except String WASMMemory :=
  if hinit : initPageCount > defaultMaxPages then .error memorySizeError
  else match declared with
    | none => .ok ⟨defaultNumBytesPerPage, initPageCount, defaultMaxPages,
        .inl ⟨rfl, UInt32.not_lt.mp hinit, UInt32.le_refl _⟩⟩
    | some maxPageCount =>
      if horder : maxPageCount < initPageCount then
        .error "size minimum must not be greater than maximum"
      else if hmax : maxPageCount > defaultMaxPages then .error memorySizeError
      else .ok ⟨defaultNumBytesPerPage, initPageCount, maxPageCount,
        .inl ⟨rfl, UInt32.not_lt.mp horder, UInt32.not_lt.mp hmax⟩⟩

def alignUint (v b : UInt32) : UInt32 :=
  let m := b - 1
  (v + m) &&& ~~~m

/-- A memory that is never grown becomes one page, and ends at `__heap_base` if the loader found it
(`auxHeapBase`) beside the globals of the data's end and the stack's top. -/
def shrinkMemory (possibleMemoryGrow : Bool) (auxHeapBase : Option UInt32) (memory : WASMMemory) : WASMMemory :=
  if possibleMemoryGrow then memory
  else
    let initMemorySize := memory.numBytesPerPage.toNat * memory.initPageCount.toNat
    let (numBytesPerPage, initPageCount) :=
      match auxHeapBase with
      | none => (memory.numBytesPerPage, memory.initPageCount)
      | some base =>
        if (alignUint base 8).toNat ≤ initMemorySize then (alignUint base 8, 1)
        else (memory.numBytesPerPage, memory.initPageCount)
    let numBytesPerPage :=
      if initPageCount < defaultMaxPages then numBytesPerPage * initPageCount else uint32Max
    if initPageCount > 0 then ⟨numBytesPerPage, 1, 1, .inr ⟨rfl, UInt32.le_refl _⟩⟩
    else ⟨numBytesPerPage, 0, 0, .inr ⟨rfl, by decide⟩⟩

/-- What `memory_instantiate` reads of the module; `UINT32_MAX` is an index of nothing. -/
structure Module where
  mallocFunction : UInt32
  freeFunction : UInt32
  auxHeapBaseGlobalIndex : UInt32
  auxHeapBase : UInt32

def appHeapSizeMax : UInt32 := 536870912

/-- The check of the heap size in `wasm_instantiate`. -/
def checkHeapSize (heapSize : UInt32) : UInt32 :=
  let heapSize := alignUint heapSize 8
  if heapSize > appHeapSizeMax then appHeapSizeMax else heapSize

def kb : UInt32 := 1024

def insertFailed : String :=
  "failed to insert app heap into linear memory, try using `--heap_size=0` option"

/-- The pages that an app heap adds; `auxHeapBase` is what the `__heap_base` global is reset to. -/
structure Inserted where
  numBytesPerPage : UInt32
  heapOffset : UInt32
  heapSize : UInt32
  incPageCount : UInt32
  auxHeapBase : Option UInt32

def bytesToPageEnd (auxHeapBase numBytesPerPage : UInt32) : UInt32 :=
  let bytesOfLastPage := auxHeapBase % numBytesPerPage
  let bytesOfLastPage := if bytesOfLastPage = 0 then numBytesPerPage else bytesOfLastPage
  numBytesPerPage - bytesOfLastPage

/-- Insert app heap before `__heap_base`. -/
def insertBeforeHeapBase (numBytesPerPage auxHeapBase heapSize : UInt32) : Inserted :=
  let incPageCount :=
    (heapSize - bytesToPageEnd auxHeapBase numBytesPerPage + numBytesPerPage - 1) / numBytesPerPage
  let heapEnd := auxHeapBase + heapSize
  if bytesToPageEnd heapEnd numBytesPerPage < kb then
    ⟨numBytesPerPage, auxHeapBase, heapSize, incPageCount + 1, some (heapEnd + kb)⟩
  else ⟨numBytesPerPage, auxHeapBase, heapSize, incPageCount, some heapEnd⟩

/-- Insert app heap before new page. -/
def insertBeforeNewPage (numBytesPerPage initPageCount heapSize : UInt32) : Inserted :=
  let incPageCount := (heapSize + numBytesPerPage - 1) / numBytesPerPage
  let heapSize := numBytesPerPage * incPageCount
  ⟨numBytesPerPage, numBytesPerPage * initPageCount, if heapSize > 0 then heapSize - kb else heapSize,
    incPageCount, none⟩

def insertHeap (module : Module) (memory : WASMMemory) (heapSize : UInt32) : Inserted :=
  if memory.initPageCount = memory.maxPageCount ∧ memory.initPageCount = 0 then
    ⟨heapSize, 0, heapSize, 1, none⟩
  else if module.auxHeapBaseGlobalIndex ≠ uint32Max ∧
      module.auxHeapBase < memory.numBytesPerPage * memory.initPageCount then
    insertBeforeHeapBase memory.numBytesPerPage module.auxHeapBase heapSize
  else insertBeforeNewPage memory.numBytesPerPage memory.initPageCount heapSize

/-- Pages and app heap of a memory to be instantiated. -/
structure Placement where
  numBytesPerPage : UInt32
  initPageCount : UInt32
  maxPageCount : UInt32
  heapOffset : UInt32
  heapSize : UInt32
  auxHeapBase : Option UInt32

/-- No app heap if the module exports functions to allocate and free memory instead. -/
def Module.heapSize (module : Module) (heapSize : UInt32) : UInt32 :=
  if heapSize > 0 ∧ module.mallocFunction ≠ uint32Max ∧ module.freeFunction ≠ uint32Max then 0 else heapSize

/-- A memory of 65536 pages becomes one page of 4 GB less a byte. -/
def insertPages (memory : WASMMemory) (i : Inserted) : Except String Placement :=
  let initPageCount := memory.initPageCount + i.incPageCount
  let maxPageCount := memory.maxPageCount + i.incPageCount
  if initPageCount > defaultMaxPages then .error insertFailed
  else if initPageCount = defaultMaxPages then
    .ok ⟨uint32Max, 1, 1, i.heapOffset, i.heapSize, i.auxHeapBase⟩
  else .ok ⟨i.numBytesPerPage, initPageCount,
    if maxPageCount > defaultMaxPages then defaultMaxPages else maxPageCount,
    i.heapOffset, i.heapSize, i.auxHeapBase⟩

/-- The first half of `memory_instantiate`. A single page is enlarged by the heap. -/
def placeHeap (module : Module) (memory : WASMMemory) (heapSize : UInt32) : Except String Placement :=
  let heapSize := module.heapSize heapSize
  if memory.initPageCount = memory.maxPageCount ∧ memory.initPageCount = 1 then
    let numBytesPerPage := memory.numBytesPerPage + heapSize
    if numBytesPerPage < heapSize then .error insertFailed
    else .ok ⟨numBytesPerPage, memory.initPageCount, memory.maxPageCount, memory.numBytesPerPage,
      heapSize, none⟩
  else if heapSize > 0 then insertPages memory (insertHeap module memory heapSize)
  else .ok ⟨memory.numBytesPerPage, memory.initPageCount, memory.maxPageCount,
    memory.numBytesPerPage * memory.initPageCount, heapSize, none⟩

/-- What the operating system and the runtime's allocator answer to `memory_instantiate`: the address
of the mapping, whether it may be read and written, and the address of the heap's structure. `mem` is the
native memory with the new mapping in it. -/
structure Os where
  pageSize : ℕ
  mmap : Option ℤ
  mprotect : Bool
  heapStruct : Option ℤ
  mem : Mem UInt8
  pageSize_pos : 0 < pageSize
  pageSize_min : 8 ∣ pageSize
  pageSize_max : pageSize ∣ 65536
  mapped : ∀ a, mmap = some a → 0 < a ∧ (pageSize : ℤ) ∣ a
  heapStruct_aligned : ∀ a, heapStruct = some a → 8 ∣ a

def Os.roundUp (os : Os) (size : ℕ) : ℕ := (size + os.pageSize - 1) / os.pageSize * os.pageSize

/-- `WASMMemoryInstance`; the bytes are the heap's. -/
structure MemoryInstance where
  numBytesPerPage : UInt32
  curPageCount : UInt32
  maxPageCount : UInt32
  memoryDataSize : UInt32
  memoryData : ℤ
  memoryDataEnd : ℤ
  heapData : ℤ
  heapDataEnd : ℤ
  heapHandle : Option Ems.Heap

def Placement.instantiate (p : Placement) (memoryData : ℤ) (memoryDataSize : UInt32)
    (heapHandle : Option Ems.Heap) : MemoryInstance :=
  { numBytesPerPage := p.numBytesPerPage
    curPageCount := p.initPageCount
    maxPageCount := p.maxPageCount
    memoryDataSize
    memoryData
    memoryDataEnd := memoryData + memoryDataSize.toNat
    heapData := memoryData + p.heapOffset.toNat
    heapDataEnd := memoryData + p.heapOffset.toNat + p.heapSize.toNat
    heapHandle }

/-- The instance, and what the `__heap_base` global is set to. -/
def memoryInstantiate (os : Os) (module : Module) (memory : WASMMemory) (heapSize : UInt32) :
    Except String (MemoryInstance × Option UInt32) :=
  match placeHeap module memory heapSize with
  | .error e => .error e
  | .ok p =>
    match os.mmap with
    | none => .error "mmap memory failed"
    | some memoryData =>
      if ¬ os.mprotect then .error "mprotect memory failed"
      else
        -- a size that `uint32` cannot hold keeps its low 32 bits
        let memoryDataSize :=
          UInt32.ofNat (os.roundUp (p.numBytesPerPage.toNat * p.initPageCount.toNat))
        if p.heapSize > 0 then
          match os.heapStruct with
          | none => .error "allocate memory failed"
          | some structBuf =>
            match Ems.gcInitWithStructAndPool os.mem structBuf (memoryData + p.heapOffset.toNat)
              p.heapSize.toNat with
            | none => .error "init app heap failed"
            | some heap => .ok (p.instantiate memoryData memoryDataSize (some heap), p.auxHeapBase)
        else .ok (p.instantiate memoryData memoryDataSize none, p.auxHeapBase)

/-- `wasm_enlarge_memory`; `mprotect` is the answer of `os_mprotect`. -/
def wasmEnlargeMemory (mprotect : Bool) (m : MemoryInstance) (incPageCount : UInt32) : MemoryInstance × Bool :=
  let totalPageCount := incPageCount + m.curPageCount
  let totalSizeNew := m.numBytesPerPage.toNat * totalPageCount.toNat
  if incPageCount ≤ 0 then (m, true)
  else if totalPageCount < m.curPageCount ∨ totalPageCount > m.maxPageCount then (m, false)
  else if ¬ mprotect then (m, false)
  else if totalSizeNew > uint32Max.toNat then
    ({ m with
      numBytesPerPage := uint32Max
      curPageCount := 1
      maxPageCount := 1
      memoryDataSize := uint32Max
      memoryDataEnd := m.memoryData + uint32Max.toNat }, true)
  else
    ({ m with
      curPageCount := totalPageCount
      memoryDataSize := UInt32.ofNat totalSizeNew
      memoryDataEnd := m.memoryData + totalSizeNew }, true)

/-- `wasm_runtime_validate_app_addr`. -/
def validateAppAddr (m : MemoryInstance) (appOffset size : UInt32) : Bool :=
  if appOffset > uint32Max - size then false else appOffset + size ≤ m.memoryDataSize

/-- `wasm_runtime_addr_app_to_native`; 0 is `NULL`. -/
def addrAppToNative (m : MemoryInstance) (appOffset : UInt32) : ℤ :=
  let addr := m.memoryData + appOffset.toNat
  if m.memoryData ≤ addr ∧ addr < m.memoryDataEnd then addr else 0

/-- `wasm_runtime_addr_native_to_app`. -/
def addrNativeToApp (m : MemoryInstance) (addr : ℤ) : UInt32 :=
  if m.memoryData ≤ addr ∧ addr < m.memoryDataEnd then UInt32.ofNat (addr - m.memoryData).toNat else 0

end WamrTest.Linear
